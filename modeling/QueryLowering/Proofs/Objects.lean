import QueryLowering.Proofs.Balance
import QueryLowering.Proofs.Conditions
import QueryLowering.Proofs.Members
import QueryLowering.Proofs.Wrapping

/-!
# Objects and their members

The members of an object are lowered one after the other, and an object among them is lowered where it stands. Its
entries join those of the outer object, below its name. Where names differ, a path of names finds again what was put
there: the value of a member, or the entries of an inner object.

## Main results

* `Assembles.resolveMembers_eq`: what is found at the places of an object.
* `construct_then_access`: an object is lowered, and what is found in it.
-/

namespace QueryLowering

open Sql Lower Node List

variable {schema : Schema} {cx cx' : Context} {members : List (String × Expr)} {places : List (Path × Node)}
variable {blocks : List (String × List (Path × Node))} {i : Nat}

/-- The context in which the members of an object are lowered. -/
def Context.insideObject (cx : Context) (place : Option Nat) : Context :=
  { cx with frames := ⟨"New", "new", place⟩ :: cx.frames }

/-- The members of an object, the first of them at a place, are lowered one after the other: a leaf to a value that is
no composite, and an inner object, which is not empty, member by member. No two members of an object have one name. The
result is the blocks of entries of the members, and the places of the object: the paths of names that lead to a leaf or
to an inner object, each with what is there. -/
inductive Assembles (schema : Schema) : Nat → Context → List (String × Expr) → List (String × List (Path × Node)) →
    List (Path × Node) → Context → Prop
  | nil (i : Nat) (cx : Context) : Assembles schema i cx [] [] [] cx
  | leaf {i : Nat} {cx mid cx' : Context} {name : String} {e : Expr} {n v : Node} {rest : List (String × Expr)}
      {blocks : List (String × List (Path × Node))} {places : List (Path × Node)} (hname : name ∉ rest.map (·.1))
      (hn : Yields schema (e.visit Recognizer.standard false (some i)) cx n mid) (hv : memberValue name e.ty n = .ok v)
      (hleaf : ∀ entries, v ≠ .composite entries) (hrest : Assembles schema (i + 1) mid rest blocks places cx') :
      Assembles schema i cx ((name, e) :: rest) ((name, [([], v)]) :: blocks) (([name], v) :: places) cx'
  | object {i : Nat} {cx mid cx' : Context} {name : String} {ty : Ty} {inner rest : List (String × Expr)}
      {innerBlocks blocks : List (String × List (Path × Node))} {innerPlaces places : List (Path × Node)}
      (hname : name ∉ rest.map (·.1)) (hty : ty.isSequence = false) (hne : inner ≠ [])
      (hinner : Assembles schema 0 (cx.insideObject (some i)) inner innerBlocks innerPlaces mid)
      (hrest : Assembles schema (i + 1) { mid with frames := cx.frames } rest blocks places cx') :
      Assembles schema i cx ((name, .construct ty inner) :: rest) ((name, blockEntries innerBlocks) :: blocks)
        (([name], .composite (blockEntries innerBlocks)) :: innerPlaces.map (fun x => (name :: x.1, x.2)) ++ places) cx'

theorem Sql.Node.ne_nil_of_mem_blockEntries (blocks : List (String × List (Path × Node))) :
    ∀ entry ∈ blockEntries blocks, entry.1 ≠ [] := by
  intro entry hentry
  obtain ⟨b, -, inner, -, rfl⟩ := exists_of_mem_blockEntries hentry
  exact cons_ne_nil _ _

namespace Assembles

theorem names_eq (h : Assembles schema i cx members blocks places cx') : blocks.map (·.1) = members.map (·.1) := by
  induction h with
  | nil => rfl
  | leaf _ _ _ _ _ ih => exact congrArg (_ :: ·) ih
  | object _ _ _ _ _ _ ih => exact congrArg (_ :: ·) ih

theorem forall_ne {name : String} (h : Assembles schema i cx members blocks places cx')
    (hname : name ∉ members.map (·.1)) : ∀ b ∈ blocks, b.1 ≠ name :=
  fun _ hb heq => hname (heq ▸ h.names_eq ▸ mem_map_of_mem hb)

theorem blockEntries_ne_nil (h : Assembles schema i cx members blocks places cx') (hne : members ≠ []) :
    blockEntries blocks ≠ [] := by
  induction h with
  | nil => exact absurd rfl hne
  | leaf => exact cons_ne_nil _ _
  | object _ _ hinner _ _ ih _ =>
    exact append_ne_nil_of_left_ne_nil (fun h => ih hinner (map_eq_nil_iff.1 h)) _

/-- What is found at the places of members, whatever members of other names stand before them. -/
theorem resolveMembers_eq (h : Assembles schema i cx members blocks places cx')
    (before : List (String × List (Path × Node))) (hbefore : ∀ b ∈ before, b.1 ∉ members.map (·.1)) (sc : Scope) :
    ∀ x ∈ places, sc.resolveMembers schema (.composite (blockEntries (before ++ blocks))) x.1 = .ok x.2 := by
  -- A member and its blocks join those before it.
  have hmove : ∀ {name : String} {names : List String} {block : List (Path × Node)} {before},
      name ∉ names → (∀ b ∈ before, b.1 ∉ name :: names) → ∀ b ∈ before ++ [(name, block)], b.1 ∉ names := by
    intro name names block before hname hbefore
    rw [forall_mem_append, forall_mem_singleton]
    exact ⟨fun b hb => not_mem_of_not_mem_cons (hbefore b hb), hname⟩
  have hhead : ∀ {name : String} {names : List String} {before : List (String × List (Path × Node))},
      (∀ b ∈ before, b.1 ∉ name :: names) → ∀ b ∈ before, b.1 ≠ name :=
    fun hbefore b hb => ne_of_not_mem_cons (hbefore b hb)
  induction h generalizing before with
  | nil => exact forall_mem_nil _
  | leaf hname _ _ _ _ ih =>
    refine forall_mem_cons.2 ⟨?_, ?_⟩
    · refine Scope.resolveMembers_cons.2 ⟨_, Scope.resolveMember_composite.2 ?_, Scope.resolveMembers_nil⟩
      exact memberOf?_blockEntries_single (hhead hbefore)
    · simpa only [append_assoc, singleton_append] using ih _ (hmove hname hbefore)
  | @object _ _ _ _ _ _ _ _ innerBlocks _ _ _ hname _ hne hinner hrest ihinner ih =>
    have hmember := memberOf?_blockEntries_nested (ne_nil_of_mem_blockEntries innerBlocks) (hhead hbefore)
      (hrest.forall_ne hname)
    rw [if_neg (hinner.blockEntries_ne_nil hne)] at hmember
    have hfirst : sc.resolveMember schema (.composite _) _ = .ok _ := Scope.resolveMember_composite.2 hmember
    refine forall_mem_cons.2 ⟨?_, forall_mem_append.2 ⟨forall_mem_map.2 fun x hx => ?_, ?_⟩⟩
    · exact Scope.resolveMembers_cons.2 ⟨_, hfirst, Scope.resolveMembers_nil⟩
    · exact Scope.resolveMembers_cons.2 ⟨_, hfirst, ihinner [] (forall_mem_nil _) x hx⟩
    · simpa only [append_assoc, singleton_append] using ih _ (hmove hname hbefore)

end Assembles

/-- An object is lowered if its members are. -/
theorem yields_construct (ty : Ty) (chained : Bool) {place : Option Nat} {ns : List Node}
    {values : List (String × Node)}
    (hns : Yields schema (lowerParts .construct {} 0 ((members.map (·.2)).zip ((members.map (·.2)).map Expr.run)))
      (cx.insideObject place) ({}, ns) cx') (hvalues : memberValues members ns = .ok values) :
    Yields schema ((Expr.construct ty members).visit Recognizer.standard chained place) cx
      (.composite (blockEntries (values.map fun p => (p.1, p.2.block)))) { cx' with frames := cx.frames } := by
  have hrule : Expr.rule? (.construct ty members) = some .construct := rfl
  refine (yields_visit_iff hrule).2 ⟨cx', ?_, rfl⟩
  simp only [lowerBy, Rule.producesQuery, Bool.false_and, Bool.false_eq_true, ↓reduceIte, yields_bind, yields_pure,
    Expr.children, Rule.finish, Lower.construct, yields_ofResult, ofMembers_eq]
  exact ⟨_, _, hns, _, _, ⟨by rw [hvalues]; rfl, rfl⟩, rfl, rfl⟩

/-- One member more. -/
theorem yields_lowerParts_cons {e : Expr} {es : List Expr} {n : Node} {ns : List Node} {mid : Context}
    (hn : Yields schema (e.visit Recognizer.standard false (some i)) cx n mid)
    (hns : Yields schema (lowerParts .construct {} (i + 1) (es.zip (es.map Expr.run))) mid ({}, ns) cx') :
    Yields schema (lowerParts .construct {} i ((e :: es).zip ((e :: es).map Expr.run))) cx ({}, n :: ns) cx' := by
  simp only [map_cons, zip_cons_cons, lowerParts, lowerPart, Rule.skipsParts, Rule.chains,
    Rule.bindings_of_isPure (r := .construct) rfl, Rule.receive_of_isPure (r := .construct) rfl, Bool.false_and,
    Bool.false_eq_true, ↓reduceIte, yields_bind, yields_pure]
  have hpart := (withParameters_nil_visit ..).symm ▸ hn
  exact ⟨_, mid, ⟨_, _, ⟨rfl, rfl⟩, n, mid, hpart, _, _, ⟨rfl, rfl⟩, rfl, rfl⟩, _, _, hns, rfl, rfl⟩

/-- The members of an object, one after the other. -/
theorem Assembles.exists_values (h : Assembles schema i cx members blocks places cx') : ∃ ns values,
    Yields schema (lowerParts .construct {} i ((members.map (·.2)).zip ((members.map (·.2)).map Expr.run))) cx ({}, ns)
      cx' ∧ memberValues members ns = .ok values ∧ (values.map fun p => (p.1, p.2.block)) = blocks := by
  induction h with
  | nil => exact ⟨[], [], yields_pure.2 ⟨rfl, rfl⟩, rfl, rfl⟩
  | @leaf _ _ _ _ name e n v _ _ _ _ hn hv hleaf _ ih =>
    obtain ⟨ns, values, hns, hvalues, rfl⟩ := ih
    refine ⟨n :: ns, (name, v) :: values, yields_lowerParts_cons hn hns, ?_, ?_⟩
    · rw [memberValues, hv, hvalues]
      rfl
    · have hblock : v.block = [([], v)] := by
        cases v with
        | composite entries => exact absurd rfl (hleaf entries)
        | _ => rfl
      rw [map_cons, hblock]
  | @object _ _ _ _ name ty _ _ innerBlocks _ _ _ _ hty _ _ _ ihinner ih =>
    obtain ⟨_, _, hinner, hvalues, rfl⟩ := ihinner
    obtain ⟨ns, values, hns, hothers, rfl⟩ := ih
    have hobject := yields_construct ty false hinner hvalues
    refine ⟨_ :: ns, (name, .composite _) :: values, yields_lowerParts_cons hobject hns, ?_, rfl⟩
    simp only [memberValues, memberValue, Expr.ty, hty, hothers]
    rfl

/-- **Access undoes construction.** An object of distinct members at each level, whose leaves are lowered to no
composites, is lowered to the entries of its blocks. In it every path of names that leads to a leaf finds the value of
the leaf, and every one that leads to an inner object finds the entries of that object, in their order. -/
theorem construct_then_access (ty : Ty) (chained : Bool) {place : Option Nat}
    (h : Assembles schema 0 (cx.insideObject place) members blocks places cx') :
    Yields schema ((Expr.construct ty members).visit Recognizer.standard chained place) cx
      (.composite (blockEntries blocks)) { cx' with frames := cx.frames } ∧
    ∀ sc : Scope, ∀ x ∈ places, sc.resolveMembers schema (.composite (blockEntries blocks)) x.1 = .ok x.2 := by
  obtain ⟨ns, values, hns, hvalues, hblocks⟩ := h.exists_values
  refine ⟨hblocks ▸ yields_construct ty chained hns hvalues, ?_⟩
  exact h.resolveMembers_eq [] (forall_mem_nil _)

namespace Sample

/-- A student and, in an inner object, the age. -/
def aged : List (String × Expr) :=
  let x : Expr := .parameter ⟨"x", .entity "Student"⟩
  [("Of", x), ("In", .construct .anonymous [("Age", x.memberOf "Age" .int)])]

/-- The inner object is found at its name, and the age at both names. -/
theorem aged_found : ∃ n cx,
    Yields studentSchema ((Expr.construct .anonymous aged).visit Recognizer.standard false none)
      { Context.empty with scope := studentScope } n cx ∧
    cx.scope.resolveMembers studentSchema n ["In"] = .ok (.composite [(["Age"], .column ⟨1⟩ "Age")]) ∧
    cx.scope.resolveMembers studentSchema n ["In", "Age"] = .ok (.column ⟨1⟩ "Age") := by
  have hx : Evaluates studentSchema studentScope (.parameter ⟨"x", .entity "Student"⟩) (.source ⟨1⟩) :=
    evaluates_parameter rfl
  have hage : Evaluates studentSchema studentScope (Expr.memberOf (.parameter ⟨"x", .entity "Student"⟩) "Age" .int)
      (.column ⟨1⟩ "Age") := evaluates_member _ rfl rfl rfl
  have hmembers : Assembles studentSchema 0 (Context.insideObject ⟨studentScope, [], [], ⟨0⟩⟩ none) aged _ _ _ :=
    .leaf (by decide) (hx _ _ _ rfl) rfl (fun _ => nofun) (.object (by decide) rfl (cons_ne_nil _ _)
      (.leaf (by decide) (hage _ _ _ rfl) rfl (fun _ => nofun) (.nil _ _)) (.nil _ _))
  obtain ⟨hyields, hfound⟩ := construct_then_access .anonymous false hmembers
  exact ⟨_, _, hyields, hfound _ _ (.tail _ (.head _)), hfound _ _ (.tail _ (.tail _ (.head _)))⟩

end Sample

end QueryLowering
