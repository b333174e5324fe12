import QueryLowering.Proofs.Blocks

/-!
# Conditions on nodes, and steps that are related

Some conditions on nodes hang on nothing that is known, and what an update or a deletion is satisfies them if what
was asked for does. The lowering of every expression keeps such a condition.

Steps of two expressions can be related without being the same: one of them may be inside a frame that the other one
is not in, or have another result.

## Main results

* `Sql.Invariant.admits`: the condition holds of updates and deletions.
* `Lower.Runs.trans`, `Lower.Relate.symm`, `Lower.Relate.inFrame`, …: the ways of relating steps.
-/

namespace QueryLowering

open Sql List

variable {R : Regime} {F G : List Frame → List Frame → Prop} {cx cx' : Context}

namespace Sql

/-! ## Conditions that the lowering keeps -/

/-- A condition that holds of a node that is no query and no row if it holds of the operands, and the other
way round. -/
theorem Compositional.ofOperands {P : Node → Prop} (intro : ∀ {n : Node}, blocksOf? n = none → (∀ m ∈ n.operands, P m) →
      (hrow : ∀ a, n ≠ .source a := by simp) → (hnot : ∀ e, n = .unary .not e → e.isPredicate = true := by simp) →
      (hname : ∀ name args, n = .function name args → name ∈ functionNames := by simp) → P n)
    (elim : ∀ {n : Node}, blocksOf? n = none → P n → ∀ m ∈ n.operands, P m)
    (rows : ∀ {d : Derived}, P (.rows d) ↔ P (.derived d))
    (subquery : ∀ {d : Derived}, P (.derived d) → P (.subquery d)) : Compositional P where
  placeholder := intro rfl (by simp [Node.operands])
  table := intro rfl (by simp [Node.operands])
  literal := intro rfl (by simp [Node.operands])
  parameter := intro rfl (by simp [Node.operands])
  column _ := intro rfl (by simp [Node.operands])
  composite := ⟨fun h => forall_mem_map.1 (elim rfl h),
      fun h => intro rfl (forall_mem_map.2 h)⟩
  grouping := ⟨fun h => by simpa [Node.operands] using elim rfl h,
    fun h => intro rfl (by simpa [Node.operands] using h)⟩
  list := ⟨fun h => elim rfl h, fun h => intro rfl h⟩
  binary hl hr := intro rfl (by simp [Node.operands, hl, hr])
  not he h := intro rfl (by simp [Node.operands, h]) (by simp) (by simp [he])
  of_not h := elim rfl h _ mem_cons_self
  minus h := intro rfl (by simp [Node.operands, h])
  isNull := ⟨fun h => elim rfl h _ mem_cons_self,
      fun h => intro rfl (by simp [Node.operands, h])⟩
  choice ht ha hb := intro rfl (by simp [Node.operands, ht, ha, hb])
  function hname h := intro rfl h (by simp) (by simp) (by simpa using hname)
  aggregate h := intro rfl fun m hm => h m (Option.mem_toList.1 hm)
  cast h := intro rfl (by simp [Node.operands, h])
  datePart h := intro rfl (by simp [Node.operands, h])
  dateAdd ha he := intro rfl (by simp [Node.operands, ha, he])
  dateDiff := ⟨fun h => by simpa [Node.operands] using elim rfl h,
    fun h => intro rfl (by simpa [Node.operands] using h)⟩
  inValues := ⟨fun h => forall_mem_cons.1 (elim rfl h),
      fun h => intro rfl (forall_mem_cons.2 h)⟩
  rows := rows
  subquery := subquery

theorem Select.clauses_iff {P : Node → Prop} {s : Select} : s.Clauses P ↔ ∀ n ∈ s.clauses, P n := by
  simp only [Select.clauses, forall_mem_append, Option.mem_toList, forall_mem_map]
  constructor
  · rintro ⟨hprojection, hfilter, hgroupBy, helement, hhaving, horder, htop, hskip⟩
    exact ⟨⟨⟨⟨⟨⟨⟨hprojection, hfilter⟩, hgroupBy⟩, helement⟩, hhaving⟩, htop⟩, hskip⟩, horder⟩
  · rintro ⟨⟨⟨⟨⟨⟨⟨hprojection, hfilter⟩, hgroupBy⟩, helement⟩, hhaving⟩, htop⟩, hskip⟩, horder⟩
    exact ⟨hprojection, hfilter, hgroupBy, helement, hhaving, horder, htop, hskip⟩

/-- A condition on nodes that the steps of the lowering keep. -/
class Invariant (P : Node → Prop) : Prop extends Compositional P where
  source : ∀ {a : Alias}, P (.source a)
  select : ∀ {s : Select}, P (.select s) ↔ s.Clauses P ∧ P (.select s.frame)
  empty : P (.select .empty)
  opened : ∀ {a : Alias} {r : Relation}, r.Holds P → P (.select { Select.empty with sources := [⟨a, r, none, none⟩] })
  joined : ∀ {s : Select} {d : DataSource}, P (.select s) → d.relation.Holds P →
    (∀ n ∈ d.condition?, P n) → P (.select (s.addSource d))
  conditioned : ∀ {s t : Select} {a : Alias} {condition : Node}, P (.select s) → P condition →
    s.setCondition a condition = .ok t → P (.select t)
  derived : ∀ {d : Derived}, P (.derived d) ↔ P (.select d.select) ∧ ∀ c ∈ d.columns, P c.expr
  existence : ∀ {d : Derived}, P (.derived d) → P (.existence d)
  union : ∀ {items : List UnionItem}, P (.union items) ↔ ∀ i ∈ items, P (.derived i.query)
  recursion : ∀ {a b : Alias} {anchor member : Derived} {columns : List (Path × String)},
    P (.derived anchor) → P (.derived member) →
      P (.select (({ Select.empty with sources := [⟨b, .cte a columns, none, none⟩] } : Select).addCte
        ⟨a, anchor, some (member.substitute anchor.id (.cte a columns))⟩))
  deletion : ∀ {m : Modification} {sc : Scope} {n : Node}, P (.select m.select) → P m.target →
    (∀ v ∈ m.values, P v.2) → m.toDelete sc = .ok n → P n
  updating : ∀ {m : Modification} {schema : Schema} {sc : Scope} {n : Node}, P (.select m.select) →
    P m.target → (∀ v ∈ m.values, P v.2) → m.toUpdate schema sc = .ok n → P n

/-- A condition that hangs on nothing that is known. -/
def Invariant.regime (schema : Schema) (P : Node → Prop) : Regime where
  watch := ⟨schema, []⟩
  World := Unit
  Grows _ _ := True
  Fits _ _ := True
  node _ := P
  strict := False
  placed := False

variable {P : Node → Prop} [Invariant P]

instance (schema : Schema) : (Invariant.regime schema P).Lawful where
  refl _ := trivial
  trans _ _ := trivial
  compositional _ := inferInstanceAs (Compositional P)
  mono _ h := h
  params h := h
  issued {w _} _ := ⟨w, trivial, trivial⟩
  owned _ := not_mem_nil
  past h := h.elim
  row _ _ := Invariant.source (P := P)
  select := Invariant.select (P := P)
  empty := Invariant.empty (P := P)
  opened {w _ _} _ hr := ⟨w, trivial, trivial, Invariant.opened (P := P) hr⟩
  joined {w _ _ _ _} _ hs hr := ⟨w, trivial, trivial, Invariant.joined (P := P) hs hr nofun⟩
  navigated {w _ _ _ _ _ _} _ hs _ := by
    refine ⟨w, trivial, trivial, Invariant.joined (P := P) hs Relation.holds_table fun n hn => ?_⟩
    exact Option.mem_some_iff.1 hn ▸ Compositional.literal (P := P)
  conditioned hs hc _ ht := Invariant.conditioned (P := P) hs hc ht
  closed _ _ _ hselect hcolumns := Invariant.derived (P := P) |>.2 ⟨hselect, hcolumns⟩
  inside hd := (Invariant.derived (P := P) |>.1 hd).1
  existence hd := Invariant.existence (P := P) hd
  union := Invariant.union (P := P)
  recursion {w _ _ _ _ _} _ hanchor hmember := ⟨w, trivial, trivial, Invariant.recursion (P := P) hanchor hmember⟩

theorem Invariant.admits (schema : Schema) (rs : List Recognizer) (H : Expr → Context → Prop) :
    (Invariant.regime schema P).Admits rs H := by
  intro e cx delete _ _ w s args mid n after chained index cx' hs hargs _ hn _
  obtain ⟨m, hm, hresult, rfl⟩ := Lower.yields_modification.1 hn
  obtain ⟨rfl, htarget, hvalues⟩ := Modification.parts_of_requested? hm
  have htarget : P m.target := by
    rcases htarget with htarget | htarget
    · exact htarget ▸ (Invariant.select (P := P) |>.1 hs).1.currentShape fun _ _ => Invariant.source
    · exact hargs _ htarget
  have hvalues : ∀ v ∈ m.values, P v.2 := by
    rcases hvalues with hvalues | hvalues
    · rw [hvalues]
      exact forall_mem_nil _
    · exact Compositional.composite.1 (hargs _ hvalues : P _)
  cases delete with
  | true => exact Invariant.deletion (P := P) hs htarget hvalues hresult
  | false => exact Invariant.updating (P := P) hs htarget hvalues hresult

end Sql

namespace Lower

variable {α β γ : Type} {w : R.World}

/-! ## Steps that are related -/

/-- Steps that are related, with a step in between. -/
theorem Runs.trans {x y : Lower α} {z : Lower β} {Q : R.World → Context → α → α → Prop}
    {S : R.World → Context → α → β → Prop} (h : Runs R G w cx x y Q) (hQ : ∀ w' cx' a b, Q w' cx' a b → a = b)
    (hG : ∀ f f', F f f' → G f f) (h' : Runs R F w cx y z S) : Runs R F w cx x z S := by
  intro hcx frames hF
  obtain ⟨hframes, -, halike, w', -, -, hmatch⟩ := h hcx cx.frames (hG _ _ hF)
  have houtcome := h' hcx frames hF
  rcases hx : x.exec R.watch.schema cx with ⟨e | a, mid⟩ <;>
    rcases hy : y.exec R.watch.schema cx with ⟨e' | b, mid'⟩ <;> rw [hx, hy] at hmatch halike <;>
    rw [hx] at hframes <;> rw [hy] at houtcome
  all_goals
    obtain rfl : mid' = mid := by
      rw [show mid' = { mid with frames := cx.frames } from halike, ← show mid.frames = cx.frames from hframes]
  · refine ⟨houtcome.frames, houtcome.names, houtcome.alike, ?_⟩
    obtain ⟨w'', hgrows, hupheld, hmatch'⟩ := houtcome.upheld
    refine ⟨w'', hgrows, hupheld, ?_⟩
    rcases hz : (z.exec R.watch.schema { cx with frames := frames }).1 with e'' | c
    · rw [hz] at hmatch'
      exact ⟨hmatch.1, hmatch'.2⟩
    · rw [hz] at hmatch'
      exact hmatch'.elim
  · exact hmatch.elim
  · exact hmatch.elim
  · obtain rfl : a = b := hQ _ _ _ _ hmatch
    exact houtcome

/-- Steps that agree have the same result below frames that are related. -/
theorem Agree.yields_elsewhere {x y : Lower α} {Q : R.World → α → Prop} (h : Agree R F w cx x y Q)
    (hcx : cx.Upheld R w) {frames : List Frame} (hF : F cx.frames frames) {a : α}
    (hy : Yields R.watch.schema x cx a cx') :
    Yields R.watch.schema y { cx with frames := frames } a { cx' with frames := frames } := by
  obtain ⟨-, -, halike, w', -, -, hmatch⟩ := h hcx frames hF
  rcases hy' : y.exec R.watch.schema { cx with frames := frames } with ⟨e | b, mid⟩ <;> rw [hy, hy'] at hmatch halike
  · exact hmatch.elim
  · obtain rfl : a = b := hmatch.1
    exact hy'.trans (congrArg (Prod.mk _) halike)

/-- Steps that agree take the same contexts to the same results. -/
theorem Agree.yields_iff {x y : Lower α} {Q : R.World → α → Prop} (h : Agree R F w cx x y Q) (hcx : cx.Upheld R w)
    (hF : F cx.frames cx.frames) {a : α} :
    Yields R.watch.schema x cx a cx' ↔ Yields R.watch.schema y cx a cx' := by
  obtain ⟨hframes, -, halike, w', -, -, hmatch⟩ := h hcx cx.frames hF
  unfold Yields
  rcases hx : x.exec R.watch.schema cx with ⟨e | b, mid⟩ <;>
    rcases hy : y.exec R.watch.schema cx with ⟨e' | b', mid'⟩ <;> rw [hx, hy] at hmatch halike <;>
    rw [hx] at hframes
  · simp
  · exact hmatch.elim
  · exact hmatch.elim
  · obtain ⟨rfl, -, -⟩ : b = b' ∧ _ := hmatch
    obtain rfl : mid' = mid := by
      rw [show mid' = { mid with frames := cx.frames } from halike, ← show mid.frames = cx.frames from hframes]
    exact Iff.rfl

/-- From whatever context, two steps keep the lent selects and have related results. -/
def Relate (R : Regime) (F : List Frame → List Frame → Prop) (x : Lower α) (y : Lower β)
    (Q : R.World → α → β → Prop) : Prop :=
  ∀ w cx, Runs R F w cx x y fun w' cx' a b => R.Kept cx.lent cx'.lent ∧ Q w' a b

theorem relate_iff_agree {x y : Lower α} {Q : R.World → α → Prop} :
    Relate R F x y (fun w a b => a = b ∧ Q w a) ↔ ∀ w cx, Agree R F w cx x y Q := forall₂_congr fun _ _ =>
    ⟨fun h => h.mono fun _ _ _ _ _ ⟨hkept, hab, hQ⟩ => ⟨hab, hkept, hQ⟩,
      fun h => h.mono fun _ _ _ _ _ ⟨hab, hkept, hQ⟩ => ⟨hkept, hab, hQ⟩⟩

namespace Relate

variable {x : Lower α} {y : Lower β} {Q : R.World → α → β → Prop} [R.Lawful]

/-- Another result of the first of two steps. -/
theorem mapLeft {f : α → γ} {S : R.World → γ → β → Prop} (h : Relate R F x y Q)
    (hf : ∀ w a b, Q w a b → S w (f a) b) : Relate R F (x >>= fun a => Pure.pure (f a)) y S := by
  intro w cx
  rw [← bind_pure y]
  exact (h w cx).bind fun a b w' mid _ _ hab => .pure ⟨hab.1, hf w' a b hab.2⟩

theorem symm (h : Relate R F x y Q) : Relate R (fun f f' => F f' f) y x fun w b a => Q w a b := by
  intro w cx hcx frames hF
  have houtcome := h w { cx with frames := frames } (hcx.withFrames frames) cx.frames hF
  rcases hx : x.exec R.watch.schema { cx with frames := frames } with ⟨a, mid⟩
  rcases hy : y.exec R.watch.schema cx with ⟨b, mid'⟩
  rw [hx, hy] at houtcome
  obtain ⟨hframes, hnames, halike, w', hgrows, hupheld, hmatch⟩ := houtcome
  obtain rfl : mid' = { mid with frames := cx.frames } := halike
  refine ⟨rfl, hnames, ?_, w', hgrows, hupheld.withFrames _, ?_⟩
  · rw [← show mid.frames = frames from hframes]
  · cases a with
    | error e => cases b with
      | error e' => exact ⟨hmatch.2, hmatch.1⟩
      | ok b => exact hmatch.elim
    | ok a => cases b with
      | error e' => exact hmatch.elim
      | ok b => exact hmatch

omit [R.Lawful] in
/-- Steps that are related, with a step in between that has the same result. -/
theorem through {x y : Lower α} {z : Lower β} {Q : R.World → α → Prop} {S : R.World → α → β → Prop}
    (h : Relate R G x y fun w a b => a = b ∧ Q w a) (hG : ∀ f f', F f f' → G f f) (h' : Relate R F y z S) :
    Relate R F x z S := fun w cx => (h w cx).trans (fun _ _ _ _ h => h.2.1) hG (h' w cx)

/-- A step inside a frame that another step is not in. -/
theorem inFrame {f : Frame} (h : Relate R G x y Q)
    (hFG : ∀ frames frames', F frames frames' → G (f :: frames) frames') : Relate R F (withFrame f x) y Q := by
  intro w cx hcx frames hF
  obtain ⟨hframes, hnames, halike, w', hgrows, hupheld, hmatch⟩ :=
    h w { cx with frames := f :: cx.frames } (hcx.withFrames _) frames (hFG _ _ hF)
  rw [exec_withFrame cx hframes]
  exact ⟨rfl, hnames, halike, w', hgrows, hupheld.withFrames _, hmatch⟩

omit [R.Lawful] in
/-- A step with no parameters bound. -/
theorem unbound (h : Relate R F x y Q) : Relate R F (withParameters [] x) y Q := by
  intro w cx hcx frames hF
  have houtcome := h w cx hcx frames hF
  have hexec : (withParameters [] x).exec R.watch.schema cx = x.exec R.watch.schema cx := by
    have hscope : ({ cx with scope := cx.scope.bind [] } : Context) = cx := by rw [Scope.bind_nil]
    change (fun r : Result α × Context =>
      (r.1, { r.2 with scope := r.2.scope.unbindTo cx.scope.params.length })) (x.exec _ _) = _
    -- There are as many parameters as before, so none is unbound.
    have hlength := congrArg List.length houtcome.names
    rw [Scope.names, Scope.names, length_map, length_map] at hlength
    dsimp only
    rw [hscope, Scope.unbindTo, ← hlength, take_length]
  rw [hexec]
  exact houtcome

end Relate

end Lower

/-- Two lowerings agree if each of them agrees with a third one. -/
theorem Visit.Agree.trans {w : R.World} {u v v' : Visit} (h : Visit.Agree R w cx u v)
    (h' : Visit.Agree R w cx v v') : Visit.Agree R w cx u v' :=
  fun chained i j => (h chained i i).trans (fun _ _ _ _ h => h.1) (fun f _ _ => SamePlace.refl i f) (h' chained i j)

end QueryLowering
