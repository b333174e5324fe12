import QueryLowering.Lower.Convert
import QueryLowering.Proofs.Result

/-!
# Runs of the lowering that succeed

A step of the lowering that has a result takes one context to another. Each lemma takes one way of
making steps apart, so that a run can be followed from its result back to its parts, as
`Result.bind_eq_ok` does for steps without a context.

## Main results

* `Lower.yields_bind`, `Lower.yields_pure`, …: the ways of making steps.
-/

namespace QueryLowering

open Sql

variable {schema : Schema} {cx cx' mid : Context} {e : Error} {s : Select} {t : Ticket} {a : PUnit}

theorem Scope.bind_nil (sc : Scope) : sc.bind [] = sc := by
  rw [bind, List.append_nil]

/-- The rule that an expression is lowered by. -/
abbrev Expr.rule? (e : Expr) : Option Rule := Recognizer.standard.findSome? (·.rule? e)

/-- Lowers an expression by those rules, in the place of a part. -/
abbrev Expr.run (e : Expr) : Visit := e.visit Recognizer.standard

theorem Expr.run_eq (e : Expr) : e.run = lowerNode Recognizer.standard e (e.children.map run) := visit_eq _ e

namespace Lower

variable {α β : Type}

/-- Against a schema, a step takes a context to another one and has a result. -/
def Yields (schema : Schema) (x : Lower α) (cx : Context) (a : α) (cx' : Context) : Prop :=
  x.exec schema cx = (.ok a, cx')

theorem exists_yields {x : Lower α} {P : α → Prop} [DecidablePred P]
    (h : ((x.exec schema cx).1.toOption.any fun a => decide (P a)) = true) : ∃ a after, Yields schema x cx a after ∧ P a := by
  obtain ⟨a, ha, hP⟩ := Result.exists_ok h
  exact ⟨a, _, Prod.ext ha rfl, hP⟩

/-- A step has one result and leaves one context. -/
theorem Yields.unique {x : Lower α} {a b : α} {after : Context} (h : Yields schema x cx a cx')
    (h' : Yields schema x cx b after) : a = b ∧ cx' = after := by
  obtain ⟨hab, hafter⟩ := Prod.mk.inj (Eq.trans (Eq.symm h) h')
  exact ⟨Except.ok.inj hab, hafter⟩

@[simp]
theorem yields_pure {a b : α} : Yields schema (pure a) cx b cx' ↔ a = b ∧ cx = cx' := by
  have h : (pure a : Lower α).exec schema cx = (.ok a, cx) := rfl
  simp [Yields, h]

theorem exec_bind_ok {x : Lower α} {a : α} (f : α → Lower β)
    (h : x.exec schema cx = (.ok a, mid)) : (x >>= f).exec schema cx = (f a).exec schema mid := by
  have hbind : (x >>= f).exec schema cx =
      ExceptT.bindCont (fun a => f a schema) (x.exec schema cx).1 (x.exec schema cx).2 := rfl
  rw [hbind, h]
  rfl

theorem exec_bind_error {x : Lower α} (f : α → Lower β)
    (h : x.exec schema cx = (.error e, mid)) : (x >>= f).exec schema cx = (.error e, mid) := by
  have hbind : (x >>= f).exec schema cx =
      ExceptT.bindCont (fun a => f a schema) (x.exec schema cx).1 (x.exec schema cx).2 := rfl
  rw [hbind, h]
  rfl

@[simp]
theorem yields_bind {x : Lower α} {f : α → Lower β} {b : β} : Yields schema (x >>= f) cx b cx' ↔
      ∃ a mid, Yields schema x cx a mid ∧ Yields schema (f a) mid b cx' := by
  unfold Yields
  rcases h : x.exec schema cx with ⟨e | a, mid⟩
  · simp [exec_bind_error f h]
  · simp [exec_bind_ok f h]

/-- After a step that leaves the context as it is, a run goes on in that context. -/
theorem exists_unchanged {P : α → Prop} {Q : α → Context → Prop} :
    (∃ a mid, (P a ∧ cx = mid) ∧ Q a mid) ↔ ∃ a, P a ∧ Q a cx := by
  constructor
  · rintro ⟨a, _, ⟨ha, rfl⟩, h⟩
    exact ⟨a, ha, h⟩
  · rintro ⟨a, ha, h⟩
    exact ⟨a, cx, ⟨ha, rfl⟩, h⟩

@[simp]
theorem not_yields_throw {b : α} : ¬ Yields schema (throw e) cx b cx' := by
  have h : (throw e : Lower α).exec schema cx = (.error e, cx) := rfl
  simp [Yields, h]

@[simp]
theorem yields_ofResult {r : Result α} {a : α} : Yields schema (ofResult r) cx a cx' ↔ r = .ok a ∧ cx = cx' := by
  cases r <;> simp [ofResult]

@[simp]
theorem yields_orThrow {o : Option α} {a : α} : Yields schema (orThrow e o) cx a cx' ↔ o = some a ∧ cx = cx' := by
  cases o <;> simp [orThrow]

@[simp]
theorem yields_known {p : Breach} {o : Option α} {a : α} :
    Yields schema (known p o) cx a cx' ↔ o = some a ∧ cx = cx' := yields_orThrow

@[simp]
theorem yields_get {a : Context} : Yields schema get cx a cx' ↔ cx = a ∧ cx = cx' := by
  have h : (get : Lower Context).exec schema cx = (.ok cx, cx) := rfl
  simp [Yields, h]

@[simp]
theorem yields_set {next : Context} : Yields schema (set next : Lower PUnit) cx a cx' ↔ next = cx' := by
  have h : (set next : Lower PUnit).exec schema cx = (.ok ⟨⟩, next) := rfl
  simp [Yields, h]

end Lower

@[simp]
theorem yields_modify {f : Context → Context} :
    Lower.Yields schema (modify f) cx a cx' ↔ f cx = cx' := by
  have h : Lower.exec (modify f) schema cx = (.ok ⟨⟩, f cx) := rfl
  simp [Lower.Yields, h]

namespace Lower

variable {α : Type}

@[simp]
theorem yields_scope {sc : Scope} : Yields schema scope cx sc cx' ↔ cx.scope = sc ∧ cx = cx' := by
  simp only [scope, yields_bind, yields_get, yields_pure, exists_unchanged, exists_eq_left']

@[simp]
theorem yields_look {f : Schema → Scope → Result α} {a : α} :
    Yields schema (look f) cx a cx' ↔ f schema cx.scope = .ok a ∧ cx = cx' := by
  have h : (read : Lower Schema).exec schema cx = (.ok schema, cx) := rfl
  have hread : ∀ {s mid}, Yields schema (read : Lower Schema) cx s mid ↔ schema = s ∧ cx = mid := by
    simp [Yields, h]
  simp only [look, yields_bind, hread, yields_scope, yields_ofResult, exists_unchanged, exists_eq_left']

@[simp]
theorem yields_update {f : Scope → α × Scope} {a : α} : Yields schema (update f) cx a cx' ↔
      (f cx.scope).1 = a ∧ { cx with scope := (f cx.scope).2 } = cx' := by
  simp only [update, yields_bind, yields_get, yields_set, yields_pure, exists_unchanged, exists_const, exists_eq_left']

@[simp]
theorem yields_attempt {f : Schema → Scope → Result (α × Scope)} {a : α} : Yields schema (attempt f) cx a cx' ↔
      ∃ sc, f schema cx.scope = .ok (a, sc) ∧ { cx with scope := sc } = cx' := by
  simp only [attempt, yields_bind, yields_look, yields_modify, yields_pure, exists_unchanged, exists_const,
    exists_eq_left', Prod.exists]
  constructor
  · rintro ⟨b, sc, h, rfl, rfl⟩
    exact ⟨sc, h, rfl⟩
  · rintro ⟨sc, h, rfl⟩
    exact ⟨a, sc, h, rfl, rfl⟩

/-- A step that runs another one from some context, and then changes the context that this one leaves. -/
theorem yields_around {x y : Lower α} {a : α} {start : Context} (f : Context → Context)
    (h : y.exec schema cx = ((x.exec schema start).1, f (x.exec schema start).2)) :
    Yields schema y cx a cx' ↔ ∃ after, Yields schema x start a after ∧ f after = cx' := by
  unfold Yields
  rw [h]
  rcases x.exec schema start with ⟨result, after⟩
  simp only [Prod.mk.injEq]
  constructor
  · rintro ⟨rfl, rfl⟩
    exact ⟨after, ⟨rfl, rfl⟩, rfl⟩
  · rintro ⟨_, ⟨rfl, rfl⟩, rfl⟩
    exact ⟨rfl, rfl⟩

/-- Where the frames inside have been left, the one of a step is left with it. -/
theorem leaveTo_eq {f : Frame} {frames : List Frame} (h : cx.frames = f :: frames) :
    cx.leaveTo frames.length = { cx with frames } := by
  simp [Context.leaveTo, h]

theorem exec_withFrame {f : Frame} {x : Lower α} (cx : Context)
    (h : (x.exec schema { cx with frames := f :: cx.frames }).2.frames = f :: cx.frames) :
    (withFrame f x).exec schema cx = ((x.exec schema { cx with frames := f :: cx.frames }).1,
      { (x.exec schema { cx with frames := f :: cx.frames }).2 with frames := cx.frames }) := by
  rw [← leaveTo_eq h]
  rfl

@[simp]
theorem yields_withFrame {f : Frame} {x : Lower α} {a : α} : Yields schema (withFrame f x) cx a cx' ↔
      ∃ after, Yields schema x { cx with frames := f :: cx.frames } a after ∧
        after.leaveTo cx.frames.length = cx' := yields_around (·.leaveTo cx.frames.length) rfl

@[simp]
theorem yields_withParameters {params : List (String × Node)} {x : Lower α} {a : α} :
    Yields schema (withParameters params x) cx a cx' ↔
      ∃ after, Yields schema x { cx with scope := cx.scope.bind params } a after ∧
        { after with scope := after.scope.unbindTo cx.scope.params.length } = cx' :=
  yields_around (fun after => { after with scope := after.scope.unbindTo cx.scope.params.length }) rfl

/-! ## Lent selects -/

@[simp]
theorem yields_lend : Yields schema (lend s) cx t cx' ↔ (cx.lend s).1 = t ∧ (cx.lend s).2 = cx' := by
  have h : (lend s).exec schema cx = (.ok (cx.lend s).1, (cx.lend s).2) := rfl
  simp [Yields, h]

@[simp]
theorem yields_reclaim : Yields schema (reclaim t) cx s cx' ↔ cx.reclaim t = .ok (s, cx') := by
  simp only [reclaim, yields_bind, yields_get, yields_ofResult, yields_set, yields_pure, exists_unchanged, exists_const,
    exists_eq_left', Prod.exists]
  constructor
  · rintro ⟨s, after, h, rfl, rfl⟩
    exact h
  · exact fun h => ⟨s, cx', h, rfl, rfl⟩

@[simp]
theorem yields_lentQuery : Yields schema (lentQuery t) cx s cx' ↔ cx.lent.lookup t = some s ∧ cx = cx' := by
  simp only [lentQuery, yields_bind, yields_get, yields_ofResult, Context.lentQuery, Result.orThrow_eq_ok,
    exists_unchanged, exists_eq_left']

@[simp]
theorem yields_setLent {u : Unit} : Yields schema (setLent t s) cx u cx' ↔ cx.setLent t s = cx' := yields_modify

end Lower

end QueryLowering
