import QueryLowering.Proofs.Writer

/-!
# What texts are written from

Every text that a dialect makes of a tree holds placeholders for parameters of that tree only, and it
has met just the parameters whose placeholders it holds, whatever the order.

## Main results

* `Sql.Statement.fragment_writtenFrom`: statements are written from their parameter nodes.
-/

namespace QueryLowering

open Sql

variable {f g : Fragment} {nodes : List (String × Value)}

namespace Fragment

/-- The parameter nodes whose placeholders stand in a text, in the order of the text. -/
def placeholders (f : Fragment) : List (String × Value) := f.tokens.filterMap fun
    | .parameter name value => some (name, value)
    | _ => none

/-- The placeholders of a text are those of the parameters that were met, and they come out of a
given list of parameter nodes. -/
structure WrittenFrom (f : Fragment) (nodes : List (String × Value)) : Prop where
  met : ∀ p, p ∈ f.placeholders ↔ p ∈ f.parameters
  origin : ∀ p ∈ f.placeholders, p ∈ nodes

@[simp]
theorem placeholders_append (f g : Fragment) : (f ++ g).placeholders = f.placeholders ++ g.placeholders := by
  simp [placeholders]

namespace WrittenFrom

/-- A text without placeholders. -/
theorem of_empty (hf : f.placeholders = []) (hp : f.parameters = []) : f.WrittenFrom nodes := by
  constructor <;> simp [hf, hp]

theorem parameter {name : String} {value : Value} (h : (name, value) ∈ nodes) :
    (Fragment.parameter name value).WrittenFrom nodes := by
  constructor <;> simp [Fragment.parameter, placeholders, h]

theorem append (hf : f.WrittenFrom nodes) (hg : g.WrittenFrom nodes) : (f ++ g).WrittenFrom nodes where
  met p := by simp [hf.met, hg.met]
  origin p hp := by
    rw [placeholders_append, List.mem_append] at hp
    exact hp.elim (hf.origin p) (hg.origin p)

theorem metLike (h : f.WrittenFrom nodes) {order : List Fragment}
    (hsame : ∀ p, p ∈ f.parameters ↔ ∃ g ∈ order, p ∈ g.parameters) : (f.metLike order).WrittenFrom nodes where
  met p := by
    have hp : p ∈ (f.metLike order).parameters ↔ ∃ g ∈ order, p ∈ g.parameters := by
      simp [Fragment.metLike]
    rw [hp, ← hsame]
    exact h.met p
  origin := h.origin

/-- Texts can be put together in any way. -/
theorem kept (nodes : List (String × Value)) : Kept (WrittenFrom · nodes) where
  empty := of_empty rfl rfl
  raw _ := of_empty rfl rfl
  identifier _ := of_empty rfl rfl
  string _ := of_empty rfl rfl
  between _ hf _ hg := (hf.append (of_empty rfl rfl)).append hg
  blank h := ⟨by simpa [Fragment.raw, placeholders] using h.met, by simpa [Fragment.raw, placeholders] using h.origin⟩
  metLike h hsame := h.metLike hsame

end WrittenFrom

end Fragment

/-! ## Parameter nodes -/

namespace Sql

/-- The parameter that a node is. -/
def parameterNode? : Node → Option (List (String × Value))
  | .parameter name v => some [(name, v)]
  | _ => none

/-- Collects the parameters of a tree. -/
def parameterNodes : Harvest (String × Value) := { node := parameterNode? }

/-- The parameters of what a statement does. -/
def Body.parameterNodes : Body → List (String × Value)
  | query q => q.harvest Sql.parameterNodes
  | update u => u.harvest Sql.parameterNodes
  | delete q => q.harvest Sql.parameterNodes

/-- The parameters of a statement. -/
def Statement.parameterNodes (s : Statement) : List (String × Value) :=
  harvestCtes Sql.parameterNodes s.ctes ++ s.body.parameterNodes

theorem Body.parameterNodes_block (b : Body) : b.parameterNodes = b.block.harvest Sql.parameterNodes := by
  cases b with
  | query q => exact q.harvest_block _
  | update u => exact u.harvest_block _
  | delete q => exact q.harvest_block _

theorem thorough_parameterNodes : parameterNodes.Thorough where
  node {n xs} h := by
    cases n with
    | parameter _ _ => exact ⟨rfl, rfl⟩
    | _ => cases h
  relation _ _ := rfl

/-- A node is one of some given parameters, if it is a parameter. -/
def Node.ParameterIn (nodes : List (String × Value)) (n : Node) : Prop :=
  ∀ name v, n = .parameter name v → (name, v) ∈ nodes

theorem Node.all_parameterIn {n : Node} (h : n.harvest parameterNodes ⊆ nodes) :
    n.All (ParameterIn nodes) := by
  intro m hm
  induction hm with
  | root =>
    rintro name v rfl
    exact h (List.mem_singleton_self _)
  | child hk _ ih => exact ih (List.Subset.trans (harvest_subset thorough_parameterNodes hk) h)

theorem Statement.all_parameterIn (s : Statement) : s.All (Node.ParameterIn s.parameterNodes) := by
  intro n hn
  refine Node.all_parameterIn ?_
  rcases List.mem_append.1 hn with hn | hn
  · obtain ⟨q, hq, rfl⟩ := List.mem_map.1 hn
    obtain ⟨c, hc, hq⟩ := List.mem_flatMap.1 hq
    exact List.Subset.trans (Cte.harvest_subset thorough_parameterNodes hc hq) (List.subset_append_left _ _)
  · refine List.Subset.trans (Block.harvest_subset thorough_parameterNodes hn) ?_
    rw [← Body.parameterNodes_block]
    exact List.subset_append_right _ _

theorem writes_writtenFrom (d : Dialect) (nodes : List (String × Value)) :
    Writes d (Node.ParameterIn nodes) (Fragment.WrittenFrom · nodes) where
  toKept := Fragment.WrittenFrom.kept nodes
  parameter h := .parameter (h _ _ rfl)
  function _ := .of_empty rfl rfl
  minus _ _ hf := .append (.of_empty rfl rfl) hf

/-- The placeholders of a statement are those of the parameters that were met, and all of them are
parameters of its tree. -/
theorem Statement.fragment_writtenFrom (d : Dialect) (s : Statement)
    (hf : s.fragment d = .ok f) : f.WrittenFrom s.parameterNodes :=
  s.holds_fragment (writes_writtenFrom d _) s.all_parameterIn hf

end Sql

end QueryLowering
