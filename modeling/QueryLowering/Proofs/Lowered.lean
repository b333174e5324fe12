import QueryLowering.Proofs.Sound

/-!
# Lowered statements

All marks of a compiled statement are accepted by one history: the lists of data sources of its selects were added to
one by one, under aliases that were handed out once.

## Main results

* `Compiler.exists_history`: the marks of a statement are accepted by a history.
-/

namespace QueryLowering

open Sql Lower

variable {A : Mark → Prop} {b : Body} {c : Compiler} {e : Expr} {s : Statement}

/-- The lowering of an expression keeps marks accepted, by whatever rules its nodes are lowered. -/
theorem Expr.visit_accepted {schema : Schema} {h : (History.regime schema).World} {cx : Context} (rs : List Recognizer)
    (e : Expr) : Visit.Agree (History.regime schema) h cx (e.visit rs) (e.visit rs) :=
  e.visit_upholds (fun _ _ _ _ _ _ => trivial) (History.admits_regime schema rs) trivial

/-- Every mark of what a statement does satisfies a condition. -/
def Sql.Body.Every (A : Mark → Prop) : Body → Prop
  | .query d => d.Every A
  | .update u => u.Every A
  | .delete d => d.select.Every A

/-- Every mark of a statement satisfies a condition. -/
structure Sql.Statement.Every (A : Mark → Prop) (s : Statement) : Prop where
  ctes : ∀ c ∈ s.ctes, c.Every A
  body : s.body.Every A

theorem Sql.Cte.Every.bare (hA : withoutCtes.Keeps A) {c : Cte} (h : c.Every A) : c.bare.Every A :=
  ⟨c.anchor.every_change hA h.anchor, every_changeRecursive hA c.recursive h.recursive⟩

theorem Sql.mem_of_mem_firstOfEach {c : Cte} {seen : List Alias} {l : List Cte}
    (hc : c ∈ firstOfEach seen l) : c ∈ l := by
  induction l generalizing seen with
  | nil => exact hc
  | cons x rest ih =>
    rw [firstOfEach] at hc
    split at hc
    · exact List.mem_cons_of_mem _ (ih hc)
    · rcases List.mem_cons.1 hc with rfl | hc
      · exact List.mem_cons_self
      · exact List.mem_cons_of_mem _ (ih hc)

theorem Sql.takes_declaredCtes : declaredCtes.Takes A fun c => c.Every A := ⟨nofun, nofun, fun _ hs => hs.ctes⟩

theorem Sql.Body.Every.declared (h : b.Every A) : ∀ c ∈ b.declared, c.Every A := by
  cases b with
  | query d => exact Derived.Every.harvest takes_declaredCtes d h
  | update u => exact Update.Every.harvest takes_declaredCtes u h
  | delete d =>
    cases d
    exact Select.Every.harvest takes_declaredCtes _ h

theorem Sql.Body.Every.bare (hA : withoutCtes.Keeps A) (h : b.Every A) : b.bare.Every A := by
  cases b with
  | query d => exact d.every_change hA h
  | update u => exact u.every_change hA h
  | delete d =>
    cases d
    exact Select.every_change hA _ h

/-- Hoisting common table expressions keeps a condition that taking them out of selects keeps. -/
theorem Sql.Statement.Every.hoist (hA : withoutCtes.Keeps A) (h : s.Every A) : s.hoist.Every A := by
  refine ⟨List.forall_mem_append.2 ⟨h.ctes, fun c hc => ?_⟩, h.body.bare hA⟩
  obtain ⟨x, hx, rfl⟩ := List.mem_map.1 hc
  exact (h.body.declared x (mem_of_mem_firstOfEach hx)).bare hA

theorem Sql.Body.every_of_body? {n : Node} (hb : n.body? = some b) (hn : n.Every A) : b.Every A := by
  cases n with cases hb
  | derived d | subquery d | rows d => exact hn
  | update u => exact Node.every_update.1 hn
  | delete d => exact Node.every_delete.1 hn

namespace Compiler

/-- The expression that is lowered: the simplified one, unless that is left out. -/
def lowered (c : Compiler) (e : Expr) : Result Expr := if c.options.preprocess then c.simplify e else pure e

/-- A statement comes from the simplified expression, unless that is left out. -/
theorem statement_eq_ok (hs : c.statement e = .ok s) :
    ∃ e' b, (if c.options.preprocess then c.simplify e else pure e) = .ok e' ∧ c.body e' = .ok b ∧
      s = if c.options.hoistCtes then Statement.hoist ⟨[], b⟩ else ⟨[], b⟩ := by
  cases hpreprocess : c.options.preprocess with
  | true =>
    simp only [statement, hpreprocess, ↓reduceIte, Result.bind_eq_ok, Result.pure_eq_ok] at hs
    obtain ⟨e', he', b, hb, rfl⟩ := hs
    exact ⟨e', b, he', hb, rfl⟩
  | false =>
    simp only [statement, hpreprocess, Bool.false_eq_true, ↓reduceIte, Result.bind_eq_ok, Result.pure_eq_ok] at hs
    obtain ⟨e', he, b, hb, rfl⟩ := hs
    exact ⟨e', b, congrArg Except.ok he, hb, rfl⟩

/-- What a statement does is what lowering the expression and completing its value yields. -/
theorem body_eq_ok (hb : c.body e = .ok b) :
    ∃ n mid cx, Yields c.schema (e.lower c.recognizers) .empty n mid ∧ Yields c.schema (statementBody n) mid b cx := by
  have hy : Yields c.schema (e.lower c.recognizers >>= statementBody) .empty b _ := Prod.ext hb rfl
  obtain ⟨n, mid, hn, hbody⟩ := yields_bind.1 hy
  exact ⟨n, mid, _, hn, hbody⟩

/-- The marks of a compiled statement are accepted by a history. -/
theorem exists_history (hs : c.statement e = .ok s) : ∃ h : History, s.Every h.Accepts := by
  obtain ⟨e', b, -, hb, rfl⟩ := statement_eq_ok hs
  obtain ⟨h, cx, -, -, -, hbody⟩ := upholds_body (R := History.regime c.schema)
    (Q := fun h b => b.Every (History.Accepts h)) (fun hb hn => Body.every_of_body? hb hn) rfl rfl
    (fun _ _ _ _ _ _ => trivial) (History.admits_regime c.schema c.recognizers) trivial
    (History.upheld_regime c.schema).fits hb
  have hstatement : (⟨[], b⟩ : Statement).Every (History.Accepts h) := ⟨List.forall_mem_nil _, hbody⟩
  refine ⟨h, ?_⟩
  split
  · exact hstatement.hoist History.keeps_bare
  · exact hstatement

end Compiler

end QueryLowering
