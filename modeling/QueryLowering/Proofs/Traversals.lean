import Mathlib.Data.List.Forall2
import Mathlib.Data.List.Perm.Basic
import QueryLowering.Error
import QueryLowering.Expr.Traverse

/-!
# Traversals of expressions

The parts of a node are listed in one place and replaced in another. Both agree on which parts there are and in which
order, for every kind of node: a node is its parts and what is left without them. The functions that are applied to
parts may fail, and they may keep a state.

## Main results

* `Expr.children_and_shell_withChildren`: what replacing the parts of a node changes.
* `Expr.follows_transformUp`: which nodes a transformation from the leaves up looks at.
* `Expr.traversals_agree`: replacing the parts of a node, and transforming a tree.
-/

namespace QueryLowering

open List

namespace Expr

variable {e e' : Expr} {parts : List Expr}

/-! ## The parts of a node and the rest of it -/

/-- The node without its parts: what it names, which of its parts are there, and how many. -/
def shell : Expr → Expr
  | call method receiver args ty => call method (receiver.map fun _ => null) (args.map fun _ => null) ty
  | member target name ty => member (target.map fun _ => null) name ty
  | binary op _ _ ty => binary op null null ty
  | unary op _ ty => unary op null ty
  | conditional _ _ _ ty => conditional null null null ty
  | lambda params _ => lambda params null
  | construct ty members => construct ty (members.map fun (name, _) => (name, null))
  | array element items => array element (items.map fun _ => null)
  | navigation _ name ty => navigation null name ty
  | childJoin _ _ condition result join ty =>
    childJoin null null (condition.map fun _ => null) (result.map fun _ => null) join ty
  | inValues _ _ negated => inValues null null negated
  | e => e

/-- An optional place takes one part if it is filled. -/
theorem exists_refill {place : Option Expr} {k : Nat} (h : parts.length = place.toList.length + k) :
    ∃ place' rest, refill place parts = (place', rest) ∧ parts = place'.toList ++ rest ∧
      (place'.map fun _ => null) = place.map (fun _ => null) ∧ rest.length = k := by
  cases place with
  | none => exact ⟨none, parts, rfl, rfl, rfl, by simpa using h⟩
  | some old =>
    obtain ⟨part, rest, rfl⟩ := exists_cons_of_length_pos (show 0 < parts.length by simp [h, Nat.add_comm])
    exact ⟨some part, rest, rfl, rfl, rfl, by simpa [Nat.add_comm] using h⟩

/-- With as many parts as it has, a node has these parts, and the rest of it is as it was. -/
theorem children_and_shell_withChildren (h : parts.length = e.children.length) :
    (e.withChildren parts).children = parts ∧ (e.withChildren parts).shell = e.shell := by
  cases e with
  | call method receiver args ty =>
    obtain ⟨place, rest, hrefill, rfl, hplace, hrest⟩ := exists_refill (h.trans length_append)
    simp [withChildren, hrefill, children, shell, hplace, hrest]
  | member target name ty =>
    obtain ⟨place, rest, hrefill, rfl, hplace, hrest⟩ := exists_refill (k := 0) h
    obtain rfl := length_eq_zero_iff.1 hrest
    rw [append_nil] at hrefill ⊢
    simp [withChildren, hrefill, children, shell, hplace]
  | construct ty members =>
    have hmembers : parts.length = members.length := by simpa [children] using h
    refine ⟨map_snd_zip (by simp [hmembers]), ?_⟩
    have hnames : ((members.map (·.1)).zip parts).map (·.1) = members.map (·.1) :=
      map_fst_zip (by simp [hmembers])
    have hshell := congrArg (List.map fun name => (name, null)) hnames
    rw [map_map, map_map] at hshell
    exact congrArg (construct ty) hshell
  | array element items =>
    have hitems : parts.length = items.length := h
    exact ⟨rfl, by simp [withChildren, shell, hitems]⟩
  | childJoin source child condition result join ty =>
    obtain ⟨source', parts, rfl⟩ := exists_cons_of_length_eq_add_one h
    obtain ⟨child', parts, rfl⟩ := exists_cons_of_length_eq_add_one (Nat.succ.inj h)
    simp only [children, length_cons, Nat.add_right_cancel_iff, length_append] at h
    obtain ⟨place, rest, hrefill, rfl, hplace, hrest⟩ := exists_refill h
    obtain ⟨place', rest, hrefill', rfl, hplace', hrest'⟩ := exists_refill (k := 0) hrest
    obtain rfl := length_eq_zero_iff.1 hrest'
    rw [append_nil] at hrefill hrefill' ⊢
    simp [withChildren, hrefill, hrefill', children, shell, hplace, hplace']
  | binary | inValues =>
    obtain ⟨left, right, rfl⟩ := length_eq_two.1 h
    exact ⟨rfl, rfl⟩
  | conditional =>
    obtain ⟨test, ifTrue, ifFalse, rfl⟩ := length_eq_three.1 h
    exact ⟨rfl, rfl⟩
  | unary | lambda | navigation =>
    obtain ⟨part, rfl⟩ := length_eq_one_iff.1 h
    exact ⟨rfl, rfl⟩
  | constant | captured | parameter =>
    obtain rfl := length_eq_zero_iff.1 h
    exact ⟨rfl, rfl⟩

/-- A node is its parts and the rest of it. -/
theorem withChildren_shell (e : Expr) : e.shell.withChildren e.children = e := by
  cases e with
  | call method receiver args ty => cases receiver <;> rfl
  | member target name ty => cases target <;> rfl
  | construct ty members =>
    have h : (members.map (·.1)).zip (members.map (·.2)) = members := by
      rw [zip_map']
      exact map_id _
    simp [shell, children, withChildren, Function.comp_def, h]
  | childJoin source child condition result join ty => cases condition <;> cases result <;> rfl
  | _ => rfl

theorem eq_of_shell (hshell : e.shell = e'.shell) (hchildren : e.children = e'.children) : e = e' := by
  rw [← withChildren_shell e, hshell, hchildren, withChildren_shell]

theorem withChildren_children (e : Expr) : e.withChildren e.children = e :=
  have h := children_and_shell_withChildren (e := e) rfl
  eq_of_shell h.2 h.1

/-! ## Functions that fail or keep a state -/

/-- A function of nodes that may fail and may keep a state. -/
abbrev Rewriter (σ : Type) : Type := Expr → ExceptT Error (StateM σ) Expr

namespace Rewriter

variable {σ α β : Type} {f : Rewriter σ} {s s' : σ} {xs ys : List Expr} {x : Error}

/-- From one state to another, a function makes nodes of nodes one after the other. -/
inductive Steps (f : Rewriter σ) : σ → List Expr → List Expr → σ → Prop
  | nil (s : σ) : Steps f s [] [] s
  | cons {s mid s' : σ} {c y : Expr} {cs ys : List Expr} (hc : (f c).run s = (.ok y, mid))
      (hcs : Steps f mid cs ys s') : Steps f s (c :: cs) (y :: ys) s'

theorem Steps.forall₂ (h : Steps f s xs ys s') : List.Forall₂ (fun c y => ∃ s s', (f c).run s = (.ok y, s')) xs ys := by
  induction h with
  | nil => exact .nil
  | cons hc _ ih => exact .cons ⟨_, _, hc⟩ ih

theorem run_bind_ok {a : ExceptT Error (StateM σ) α} {v : α} (h : a.run s = (.ok v, s'))
    (g : α → ExceptT Error (StateM σ) β) : (a >>= g).run s = (g v).run s' := by
  change ExceptT.bindCont g (a.run s).1 (a.run s).2 = _
  rw [h]
  rfl

theorem run_bind_error {a : ExceptT Error (StateM σ) α} (h : a.run s = (.error x, s'))
    (g : α → ExceptT Error (StateM σ) β) : (a >>= g).run s = (.error x, s') := by
  change ExceptT.bindCont g (a.run s).1 (a.run s).2 = _
  rw [h]
  rfl

theorem Steps.run_mapM (h : Steps f s xs ys s') : (xs.mapM f).run s = (.ok ys, s') := by
  induction h with
  | nil s => rfl
  | cons hc _ ih =>
    rw [mapM_cons, run_bind_ok hc, run_bind_ok ih]
    rfl

theorem Steps.run_mapM_error {c : Expr} {mid : σ} (h : Steps f s xs ys mid) (hc : (f c).run mid = (.error x, s'))
    (after : List Expr) : ((xs ++ c :: after).mapM f).run s = (.error x, s') := by
  induction h with
  | nil s => rw [nil_append, mapM_cons, run_bind_error hc]
  | cons hd _ ih => rw [cons_append, mapM_cons, run_bind_ok hd, run_bind_error (ih hc)]

/-- Nodes are replaced in turn until the function fails. -/
theorem steps_or_fails (f : Rewriter σ) (s : σ) (xs : List Expr) :
    (∃ ys s', Steps f s xs ys s') ∨ ∃ before c after ys mid x s', xs = before ++ c :: after ∧
      Steps f s before ys mid ∧ (f c).run mid = (.error x, s') := by
  induction xs generalizing s with
  | nil => exact .inl ⟨[], s, .nil s⟩
  | cons c cs ih =>
    rcases hc : (f c).run s with ⟨x | y, mid⟩
    · exact .inr ⟨[], c, cs, [], s, x, mid, rfl, .nil s, hc⟩
    · rcases ih mid with ⟨ys, s', h⟩ | ⟨before, c', after, ys, mid', x, s', rfl, h, hc'⟩
      · exact .inl ⟨y :: ys, s', .cons hc h⟩
      · exact .inr ⟨c :: before, c', after, y :: ys, mid', x, s', rfl, .cons hc h, hc'⟩

theorem run_mapChildren_eq_ok {e e' : Expr} :
    (mapChildren f e).run s = (.ok e', s') ↔ e'.shell = e.shell ∧ Steps f s e.children e'.children s' := by
  have hok : ∀ {ys s'}, Steps f s e.children ys s' → (mapChildren f e).run s = (.ok (e.withChildren ys), s') := by
    intro ys s' h
    rw [mapChildren_eq, run_bind_ok h.run_mapM]
    rfl
  constructor
  · intro h
    rcases steps_or_fails f s e.children with ⟨ys, mid, hys⟩ | ⟨before, c, after, ys, mid, x, last, hparts, hys, hc⟩
    · obtain ⟨⟨⟩, rfl⟩ := Prod.mk.inj ((hok hys).symm.trans h)
      obtain ⟨hchildren, hshell⟩ := children_and_shell_withChildren hys.forall₂.length_eq.symm
      exact ⟨hshell, hchildren.symm ▸ hys⟩
    · rw [mapChildren_eq, hparts, run_bind_error (hys.run_mapM_error hc after)] at h
      cases h
  · rintro ⟨hshell, h⟩
    obtain ⟨hchildren, hshell'⟩ := children_and_shell_withChildren h.forall₂.length_eq.symm
    rw [hok h, eq_of_shell (hshell'.trans hshell.symm) hchildren]

theorem run_mapChildren_eq_error {e : Expr} : (mapChildren f e).run s = (.error x, s') ↔
    ∃ before c after ys mid, e.children = before ++ c :: after ∧ Steps f s before ys mid ∧
      (f c).run mid = (.error x, s') := by
  constructor
  · intro h
    rcases steps_or_fails f s e.children with ⟨ys, mid, hys⟩ | ⟨before, c, after, ys, mid, y, last, hparts, hys, hc⟩
    · rw [mapChildren_eq, run_bind_ok hys.run_mapM] at h
      cases h
    · rw [mapChildren_eq, hparts, run_bind_error (hys.run_mapM_error hc after)] at h
      cases h
      exact ⟨before, c, after, ys, mid, hparts, hys, hc⟩
  · rintro ⟨before, c, after, ys, mid, hparts, hys, hc⟩
    rw [mapChildren_eq, hparts, run_bind_error (hys.run_mapM_error hc after)]

/-! ## The nodes that a transformation looks at -/

/-- The function, and the nodes that it is called on noted in turn. -/
def noting (f : Rewriter σ) : Rewriter (List Expr × σ) := fun c => ExceptT.mk fun (noted, s) =>
  (((f c).run s).1, noted ++ [c], ((f c).run s).2)

/-- A node as a transformation finds it: its parts are what the parts of a node have been transformed to. -/
def Rebuilt (f : Rewriter σ) (e e' : Expr) : Prop :=
  e'.shell = e.shell ∧ List.Forall₂ (fun c y => ∃ s s', (transformUp f c).run s = (.ok y, s')) e.children e'.children

/-- Two computations do the same, and the second one notes the nodes that are met: those of a list in their order, all
of them unless the computations fail. -/
def Follows (f : Rewriter σ) (order : List Expr) (a : ExceptT Error (StateM σ) α)
    (a' : ExceptT Error (StateM (List Expr × σ)) α) : Prop :=
  ∀ s noted, ∃ visited rest calls, order = visited ++ rest ∧
    a'.run (noted, s) = ((a.run s).1, noted ++ calls, (a.run s).2) ∧ List.Forall₂ (Rebuilt f) visited calls ∧
    ((a.run s).1.isOk = true → rest = [])

theorem follows_pure (v : α) : Follows f [] (pure v) (pure v) := fun s noted =>
  ⟨[], [], [], rfl, by rw [append_nil]; rfl, .nil, fun _ => rfl⟩

theorem Follows.bind {order order' : List Expr} {a : ExceptT Error (StateM σ) α}
    {a' : ExceptT Error (StateM (List Expr × σ)) α} {g : α → ExceptT Error (StateM σ) β}
    {g' : α → ExceptT Error (StateM (List Expr × σ)) β} (h : Follows f order a a')
    (hg : ∀ v s s', a.run s = (.ok v, s') → Follows f order' (g v) (g' v)) :
    Follows f (order ++ order') (a >>= g) (a' >>= g') := by
  intro s noted
  obtain ⟨visited, rest, calls, rfl, hrun, hcalls, hrest⟩ := h s noted
  rcases ha : a.run s with ⟨x | v, mid⟩
  · rw [ha] at hrun
    refine ⟨visited, rest ++ order', calls, by simp, ?_, hcalls, ?_⟩
    · rw [run_bind_error hrun, run_bind_error ha]
    · simp [run_bind_error ha, Except.isOk, Except.toBool]
  · obtain rfl := hrest (by rw [ha]; rfl)
    rw [ha] at hrun
    obtain ⟨visited', rest', calls', rfl, hrun', hcalls', hrest'⟩ := hg v s mid ha mid (noted ++ calls)
    refine ⟨visited ++ visited', rest', calls ++ calls', by simp, ?_, rel_append hcalls hcalls', ?_⟩
    · rw [run_bind_ok hrun, run_bind_ok ha, hrun', append_assoc]
    · rwa [run_bind_ok ha]

end Rewriter

open Rewriter

/-- All nodes of a tree, each behind its parts. -/
def postorder : Expr → List Expr := fold fun e parts => parts.flatten ++ [e]

theorem postorder_eq (e : Expr) : e.postorder = e.children.flatMap postorder ++ [e] := fold_eq _ e

theorem walk_eq (e : Expr) : e.walk = e :: e.children.flatMap walk := fold_eq _ e

theorem postorder_perm_walk (e : Expr) : e.postorder.Perm e.walk := by
  induction e using induction_on_children with
  | hP e ih =>
    rw [postorder_eq, walk_eq]
    exact (perm_append_singleton e _).trans (.cons e (List.Perm.flatMap_left _ ih))

variable {σ : Type} (f : Rewriter σ)

/-- A transformation meets the nodes of a tree behind their parts.

**Proof sketch.** Induction over the tree. The parts of a node are transformed in turn, and the node that is then met
is the node with what was made of its parts. -/
theorem follows_transformUp (e : Expr) : Follows f e.postorder (transformUp f e) (transformUp (noting f) e) := by
  induction e using induction_on_children with
  | hP e ih =>
    have hparts : ∀ cs : List Expr, (∀ c ∈ cs, Follows f c.postorder (transformUp f c) (transformUp (noting f) c)) →
        Follows f (cs.flatMap postorder) (cs.mapM (transformUp f)) (cs.mapM (transformUp (noting f))) := by
      intro cs hcs
      induction cs with
      | nil => exact follows_pure []
      | cons c cs ihcs =>
        rw [forall_mem_cons] at hcs
        rw [mapM_cons, mapM_cons, flatMap_cons]
        refine hcs.1.bind fun y _ _ _ => ?_
        rw [← append_nil (cs.flatMap postorder)]
        exact (ihcs hcs.2).bind fun ys _ _ _ => follows_pure (y :: ys)
    have hchildren : Follows f (e.children.flatMap postorder) (mapChildren (transformUp f) e)
        (mapChildren (transformUp (noting f)) e) := by
      rw [mapChildren_eq, mapChildren_eq, ← append_nil (e.children.flatMap postorder)]
      exact (hparts e.children ih).bind fun ys _ _ _ => follows_pure _
    rw [transformUp_eq, transformUp_eq, postorder_eq]
    refine hchildren.bind fun v s s' hv t noted => ?_
    obtain ⟨hshell, hsteps⟩ := run_mapChildren_eq_ok.1 hv
    exact ⟨[e], [], [v], rfl, rfl, .cons ⟨hshell, hsteps.forall₂⟩ .nil, fun _ => rfl⟩

theorem transformUp_pure {m : Type → Type} [Monad m] [LawfulMonad m] (e : Expr) :
    transformUp (pure : Expr → m Expr) e = pure e := by
  induction e using induction_on_children with
  | hP e ih =>
    have hparts : ∀ cs : List Expr, (∀ c ∈ cs, transformUp (pure : Expr → m Expr) c = pure c) →
        cs.mapM (transformUp (pure : Expr → m Expr)) = pure cs := by
      intro cs hcs
      induction cs with
      | nil => rw [mapM_nil]
      | cons c cs ihcs =>
        rw [forall_mem_cons] at hcs
        rw [mapM_cons, hcs.1, pure_bind, ihcs hcs.2, pure_bind]
    rw [transformUp_eq, mapChildren_eq, hparts e.children ih, bind_pure, pure_bind, withChildren_children]

/-- The two traversals of a tree agree. If the parts of a node are replaced by a function, then they are what the
function makes of the parts that the node lists, in their order, and nothing else of the node changes. This fails at
the first part at which the function fails, with its error. A transformation without effect gives the tree, and every
other one meets the nodes of a walk, which has each before its parts, with each behind its parts, which have been
transformed by then. -/
theorem traversals_agree (e : Expr) :
    (∀ s e' s', (mapChildren f e).run s = (.ok e', s') ↔ e'.shell = e.shell ∧ Steps f s e.children e'.children s') ∧
    (∀ s x s', (mapChildren f e).run s = (.error x, s') ↔ ∃ before c after ys mid, e.children = before ++ c :: after ∧
      Steps f s before ys mid ∧ (f c).run mid = (.error x, s')) ∧
    transformUp (pure : Rewriter σ) e = pure e ∧ e.walk = e :: e.children.flatMap walk ∧
    e.postorder = e.children.flatMap postorder ++ [e] ∧ e.postorder.Perm e.walk ∧
    Follows f e.postorder (transformUp f e) (transformUp (noting f) e) :=
  ⟨fun _ _ _ => run_mapChildren_eq_ok, fun _ _ _ => run_mapChildren_eq_error, transformUp_pure e,
    walk_eq e, postorder_eq e, postorder_perm_walk e, follows_transformUp f e⟩

end Expr

end QueryLowering
