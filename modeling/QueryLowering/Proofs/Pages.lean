import QueryLowering.Proofs.Composition
import QueryLowering.Proofs.Evaluation

/-!
# Pages

A page is given by its number and its size, each of which is written in the query or captured. If both are written,
the rows before the page are counted at once; otherwise the statement holds the expression that counts them. The two
agree on the pages from the first one on. Those before it start where the first one does if the numbers are written,
and at a negative offset if they are captured.

## Main results

* `yields_paging_iff`: what a page of a query becomes.
* `page_offsets_agree_iff`: when the offsets of written and of captured numbers agree.
-/

namespace QueryLowering

open Sql Lower

/-! ## Numbers -/

/-- The number that an expression of integers stands for. Parameters stand for their values. -/
def Sql.Node.number? : Node → Option Int
  | .literal (.int k) | .parameter _ (.int k) => some k
  | .binary .plus l r => do return (← l.number?) + (← r.number?)
  | .binary .minus l r => do return (← l.number?) - (← r.number?)
  | .binary .multiply l r => do return (← l.number?) * (← r.number?)
  | _ => none

/-- The expressions that give a number: it is written in the query or captured. -/
inductive Expr.IsNumber (k : Int) : Bool → Expr → Prop
  | written (ty : Ty) : IsNumber k true (.constant (.int k) ty)
  | captured (name : String) (ty : Ty) : IsNumber k false (.captured name (.int k) ty)

/-- The nodes that numbers become. -/
inductive Sql.Node.IsNumber (k : Int) : Bool → Node → Prop
  | written : IsNumber k true (.literal (.int k))
  | captured (name : String) : IsNumber k false (.parameter name (.int k))

variable {schema : Schema} {k page size : Int} {b c : Bool} {e p q : Expr} {n : Node} {pr : Progress} {cx cx' : Context}

theorem Expr.IsNumber.evaluates (h : e.IsNumber k b) :
    ∃ n : Node, n.IsNumber k b ∧ ∀ schema sc, Evaluates schema sc e n := by
  cases h with
  | written ty => exact ⟨_, .written, fun _ _ => evaluates_constant ty rfl⟩
  | captured name ty => exact ⟨_, .captured name, fun _ _ => evaluates_captured name _ ty fun _ => nofun⟩

theorem Expr.IsNumber.lambdaParams_eq (h : e.IsNumber k b) : lambdaParams e = [] := by
  cases h <;> rfl

theorem Sql.Node.IsNumber.number?_eq (h : n.IsNumber k b) : n.number? = some k := by
  cases h <;> rfl

theorem Sql.Node.IsNumber.asScalar_eq (h : n.IsNumber k b) : n.asScalar = n := by
  cases h <;> rfl

/-! ## Offsets -/

/-- The rows before a page whose number and size are written are counted at once. -/
theorem pageOffset_written (hpage : isWord (page - 1)) (hproduct : isWord (max (page - 1) 0 * size)) :
    pageOffset (.literal (.int page)) (.literal (.int size)) = .ok (.literal (.int (max (page - 1) 0 * size))) := by
  rw [pageOffset, Arithmetic.checked, if_pos hpage]
  change (do return Node.literal (.int (← Arithmetic.multiply.checked (max (page - 1) 0 * size)))) = _
  rw [Arithmetic.checked, if_pos hproduct]
  rfl

/-- The rows before other pages are counted by an expression. -/
theorem pageOffset_captured {m : Node} (hn : n.IsNumber page b) (hm : m.IsNumber size c) (hbc : (b && c) = false) :
    ∃ offset, pageOffset n m = .ok offset ∧ offset.number? = some ((page - 1) * size) := by
  refine ⟨.binary .multiply (.binary .minus n (.literal (.int 1))) m, ?_, ?_⟩
  · cases hn <;> cases hm <;> first | rfl | cases hbc
  · simp [Node.number?, hn.number?_eq, hm.number?_eq]

/-- The offsets agree on the pages from the first one on, and on pages without rows. -/
theorem clampedOffset_eq_iff : max (page - 1) 0 * size = (page - 1) * size ↔ 1 ≤ page ∨ size = 0 := by
  by_cases hsize : size = 0
  · simp [hsize]
  · rw [Int.mul_eq_mul_right_iff hsize]
    omega

/-! ## Pages of queries -/

/-- The select of a query, made ready for an operation. -/
def readiedFor (op : Operation) (q : Expr) (index : Option Nat) : Lower Select := do
  let s ← selectOf q index
  attempt fun schema sc => s.prepare schema op sc

/-- The first part of a step is a query, whose select is made ready and lent. -/
theorem yields_sourcePart_iff {st : Step} {r : Progress × Node} :
    Yields schema (lowerPart (.step st) {} 0 q (q.run)) cx r cx' ↔
      ∃ ready mid, Yields schema (readiedFor st.operation q (some 0)) cx ready mid ∧
        ({ source := some (mid.lend ready).1 }, .placeholder) = r ∧ (mid.lend ready).2 = cx' := by
  simp only [lowerPart, Rule.skipsParts, Rule.chains, Rule.bindings, Rule.receiveQuery, readiedFor, selectOf,
    Bool.false_eq_true, ↓reduceIte, beq_self_eq_true, Bool.and_self, yields_bind, yields_pure, yields_lend]
  constructor
  · rintro ⟨_, _, ⟨rfl, rfl⟩, m, before, hm, s, opened, hs, _, _, ⟨ready, mid, hready, _, _, ⟨rfl, rfl⟩, rfl, rfl⟩, rfl, rfl⟩
    exact ⟨ready, mid, ⟨s, opened, ⟨m, before, hm, hs⟩, hready⟩, rfl, rfl⟩
  · rintro ⟨ready, mid, ⟨s, opened, ⟨m, before, hm, hs⟩, hready⟩, rfl, rfl⟩
    exact ⟨_, _, ⟨rfl, rfl⟩, m, before, hm, s, opened, hs, _, _, ⟨ready, mid, hready, _, _, ⟨rfl, rfl⟩, rfl, rfl⟩, rfl, rfl⟩

/-- The number or the size of a page as a part. -/
theorem yields_numberPart (he : e.IsNumber k b) (hn : ∀ sc, Evaluates schema sc e n) {t : Ticket} {i : Nat} (hi : 1 ≤ i)
    (hp : pr.source = some t) : Yields schema (lowerPart (.step .paging) pr i e (e.run)) cx (pr, n) cx := by
  obtain ⟨i, rfl⟩ := Nat.exists_eq_succ_of_ne_zero (Nat.pos_iff_ne_zero.1 hi)
  have hbind : Yields schema (bindFirst e t) cx [] cx := by
    rw [bindFirst, he.lambdaParams_eq]
    exact yields_pure.2 ⟨rfl, rfl⟩
  have hplace : (i.succ == 0) = false := rfl
  simp only [lowerPart, Rule.skipsParts, Rule.chains, Rule.bindings, Rule.receive, Step.bindings, Step.anticipate,
    Step.receive, hp, hplace, Nat.succ_ne_zero, Bool.and_false, Bool.false_eq_true, ↓reduceIte, yields_bind,
    yields_pure, yields_known]
  exact ⟨_, _, ⟨t, _, ⟨rfl, rfl⟩, _, _, hbind, _, _, ⟨rfl, rfl⟩, rfl, rfl⟩, n, cx,
    (hn cx.scope).withParameters_nil rfl _ _, _, _, ⟨t, _, ⟨hp, rfl⟩, rfl, rfl⟩, rfl, rfl⟩

variable {np ns : Node} {s : Expr}

/-- The parts of a page: the select of the query is lent, and the number and the size have their values. -/
theorem yields_pageParts_iff (hp : p.IsNumber page b) (hs : s.IsNumber size c) (hnp : ∀ sc, Evaluates schema sc p np)
    (hns : ∀ sc, Evaluates schema sc s ns) {r : Progress × List Node} : Yields schema (lowerParts (.step .paging) {} 0
        ([q, p, s].zip ([q, p, s].map Expr.run))) cx r cx' ↔
      ∃ ready mid, Yields schema (readiedFor .skip q (some 0)) cx ready mid ∧
        ({ source := some (mid.lend ready).1 }, [.placeholder, np, ns]) = r ∧ (mid.lend ready).2 = cx' := by
  have hnumbers : ∀ {pr : Progress} {t} (mid : Context), pr.source = some t →
      Yields schema (lowerParts (.step .paging) pr 1 ([p, s].zip ([p, s].map Expr.run))) mid
        (pr, [np, ns]) mid := fun mid ht =>
    yields_lowerParts (.cons (fun _ hi => yields_numberPart hp hnp hi ht)
      (.cons (fun _ hi => yields_numberPart hs hns hi ht) .nil))
  rw [List.map_cons, List.zip_cons_cons, lowerParts]
  simp only [yields_bind, yields_sourcePart_iff, yields_pure]
  constructor
  · rintro ⟨_, _, ⟨ready, mid, hready, rfl, rfl⟩, _, _, hrest, rfl, rfl⟩
    obtain ⟨rfl, rfl⟩ := hrest.unique (hnumbers _ rfl)
    exact ⟨ready, mid, hready, rfl, rfl⟩
  · rintro ⟨ready, mid, hready, rfl, rfl⟩
    exact ⟨_, _, ⟨ready, mid, hready, rfl, rfl⟩, _, _, hnumbers _ rfl, rfl, rfl⟩

/-- A page of a query is its select, made ready, with the offset of the page and its size. -/
theorem yields_paging_iff {method : Method} (hmethod : Operator.ofMethod? method = some .paging)
    (hp : p.IsNumber page b) (hs : s.IsNumber size c) (hnp : ∀ sc, Evaluates schema sc p np)
    (hns : ∀ sc, Evaluates schema sc s ns) {offset : Node} (hoffset : pageOffset np.asScalar ns.asScalar = .ok offset)
    {ty : Ty} {index : Option Nat} : Yields schema ((Expr.call method none [q, p, s] ty).run true index) cx n cx' ↔
      ∃ ready mid, Yields schema (readiedFor .skip q (some 0))
          { cx with frames := ⟨"Paging", "method call", index⟩ :: cx.frames } ready mid ∧
        .select { ready with skip := some offset, top := some ns.asScalar } = n ∧
        { mid with frames := cx.frames, lastTicket := ⟨mid.lastTicket.number + 1⟩ } = cx' := by
  have hrule : Expr.rule? (.call method none [q, p, s] ty) = some (.step .paging) :=
    rule_ungrouped hmethod rfl
  simp only [yields_visit_iff hrule, lowerBy, Expr.children, Expr.kindName, Option.toList_none, List.nil_append, yields_bind,
    yields_pageParts_iff hp hs hnp hns, Rule.name, Step.name, Rule.finish, Step.finish, yields_known, yields_reclaim,
    yields_part, yields_ofResult, yields_pure, Bool.not_true, Bool.and_false, Bool.false_eq_true, ↓reduceIte]
  constructor
  · rintro ⟨_, ⟨_, _, ⟨ready, mid, hready, rfl, rfl⟩, _, _, ⟨t, _, ⟨ht, rfl⟩, s', _, hback, m, _, ⟨hm, rfl⟩, m', _, ⟨hm', rfl⟩,
      offset', _, ⟨hoffset', rfl⟩, rfl, rfl⟩, rfl, rfl⟩, rfl⟩
    obtain rfl := Option.some.inj ht
    obtain ⟨rfl, rfl⟩ := Prod.mk.inj (Except.ok.inj ((Context.reclaim_lend _ _).symm.trans hback))
    obtain rfl := Option.some.inj hm
    obtain rfl := Option.some.inj hm'
    obtain rfl := Except.ok.inj (hoffset.symm.trans hoffset')
    exact ⟨ready, mid, hready, rfl, rfl⟩
  · rintro ⟨ready, mid, hready, rfl, rfl⟩
    exact ⟨_, ⟨_, _, ⟨ready, mid, hready, rfl, rfl⟩, _, _, ⟨_, _, ⟨rfl, rfl⟩, ready, _, Context.reclaim_lend _ _, np, _,
      ⟨rfl, rfl⟩, ns, _, ⟨rfl, rfl⟩, offset, _, ⟨hoffset, rfl⟩, rfl, rfl⟩, rfl, rfl⟩, rfl⟩

/-- **Written and captured pages.** Take the same page of the same query, once with a written number and size and once
with a captured one. Both are lowered or none is, and they become selects that differ only in the page. Both take as many
rows as the page has. Their offsets agree exactly if the page is not one before the first, or has no rows. -/
theorem page_offsets_agree_iff {method : Method} (hmethod : Operator.ofMethod? method = some .paging)
    (hpage : isWord (page - 1)) (hproduct : isWord (max (page - 1) 0 * size)) {p' s' : Expr}
    (hp : p.IsNumber page true) (hs : s.IsNumber size true) (hp' : p'.IsNumber page b) (hs' : s'.IsNumber size c)
    (hbc : (b && c) = false) (q : Expr) (ty : Ty) (schema : Schema) (index : Option Nat) (cx : Context) :
    let written := (Expr.call method none [q, p, s] ty).visit Recognizer.standard true index
    let captured := (Expr.call method none [q, p', s'] ty).visit Recognizer.standard true index
    (∀ after, (∃ n, Yields schema written cx n after) ↔ ∃ n, Yields schema captured cx n after) ∧
    ∀ n n' after after', Yields schema written cx n after → Yields schema captured cx n' after' →
      ∃ t t' : Select, n = .select t ∧ n' = .select t' ∧ { t with skip := t'.skip, top := t'.top } = t' ∧
        t.top.bind Node.number? = some size ∧ t'.top.bind Node.number? = some size ∧
        t.skip.bind Node.number? = some (max (page - 1) 0 * size) ∧
        t'.skip.bind Node.number? = some ((page - 1) * size) ∧
        (t.skip.bind Node.number? = t'.skip.bind Node.number? ↔ 1 ≤ page ∨ size = 0) := by
  intro written captured
  obtain ⟨np, hnp, hpv⟩ := hp.evaluates
  obtain ⟨ns, hns, hsv⟩ := hs.evaluates
  obtain ⟨np', hnp', hpv'⟩ := hp'.evaluates
  obtain ⟨ns', hns', hsv'⟩ := hs'.evaluates
  have hoffset : pageOffset np.asScalar ns.asScalar = .ok (.literal (.int (max (page - 1) 0 * size))) := by
    cases hnp
    cases hns
    exact pageOffset_written hpage hproduct
  obtain ⟨offset, hoffset', hnumber⟩ := pageOffset_captured hnp' hns' hbc
  rw [← hnp'.asScalar_eq, ← hns'.asScalar_eq] at hoffset'
  refine ⟨fun after => ?_, fun n n' after after' hy hy' => ?_⟩
  · constructor
    · rintro ⟨n, hy⟩
      obtain ⟨ready, mid, hready, -, hafter⟩ := (yields_paging_iff hmethod hp hs (hpv _) (hsv _) hoffset).1 hy
      exact ⟨_, (yields_paging_iff hmethod hp' hs' (hpv' _) (hsv' _) hoffset').2 ⟨ready, mid, hready, rfl, hafter⟩⟩
    · rintro ⟨n, hy⟩
      obtain ⟨ready, mid, hready, -, hafter⟩ := (yields_paging_iff hmethod hp' hs' (hpv' _) (hsv' _) hoffset').1 hy
      exact ⟨_, (yields_paging_iff hmethod hp hs (hpv _) (hsv _) hoffset).2 ⟨ready, mid, hready, rfl, hafter⟩⟩
  · obtain ⟨ready, mid, hready, rfl, -⟩ := (yields_paging_iff hmethod hp hs (hpv _) (hsv _) hoffset).1 hy
    obtain ⟨ready', mid', hready', rfl, -⟩ := (yields_paging_iff hmethod hp' hs' (hpv' _) (hsv' _) hoffset').1 hy'
    obtain ⟨rfl, rfl⟩ := hready.unique hready'
    refine ⟨_, _, rfl, rfl, rfl, ?_⟩
    simp only [Option.bind_some, hns.asScalar_eq, hns'.asScalar_eq, hns.number?_eq, hns'.number?_eq, hnumber, true_and]
    exact ⟨rfl, Option.some_inj.trans clampedOffset_eq_iff⟩

namespace Sample

/-- The page of students before the first one, whose number and size are written. -/
def zerothPage : Expr := ((Query.ofEntity "Student").paging 0 10).expr

/-- The page of students before the first one, whose number and size are captured. -/
def capturedZerothPage : Expr :=
  .call ⟨Operator.extensions, "Paging", []⟩ none
    [(Query.ofEntity "Student").expr, .captured "page" (.int 0) .int, .captured "size" (.int 10) .int]
    (.queryable (.entity "Student"))

/-- The written page before the first one starts at the first row, and the captured one ten rows before it. -/
theorem zerothPage_offsets : ∃ t t' after after',
    Yields studentSchema (zerothPage.visit Recognizer.standard true none) .empty (.select t) after ∧
    Yields studentSchema (capturedZerothPage.visit Recognizer.standard true none) .empty (.select t') after' ∧
    t.skip.bind Node.number? = some 0 ∧ t'.skip.bind Node.number? = some (-10) := by
  have hmethod : Operator.ofMethod? ⟨Operator.extensions, "Paging", []⟩ = some .paging := rfl
  obtain ⟨halike, hpages⟩ := page_offsets_agree_iff hmethod (show isWord (0 - 1) from rfl)
    (show isWord (max (0 - 1) 0 * 10) from rfl) (.written .int) (.written .int) (.captured "page" .int)
    (.captured "size" .int)
    rfl (Query.ofEntity "Student").expr (.queryable (.entity "Student")) studentSchema none .empty
  obtain ⟨n, after, hn, -⟩ : ∃ n after,
      Yields studentSchema (zerothPage.visit Recognizer.standard true none) .empty n after ∧ True :=
    exists_yields (by decide +kernel)
  obtain ⟨n', hn'⟩ := (halike after).1 ⟨n, hn⟩
  obtain ⟨t, t', rfl, rfl, -, -, -, hskip, hskip', -⟩ := hpages n n' after after hn hn'
  exact ⟨t, t', after, after, hn, hn', hskip, hskip'⟩

end Sample

end QueryLowering
