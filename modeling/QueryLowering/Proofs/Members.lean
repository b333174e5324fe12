import QueryLowering.Proofs.Denotes

/-!
# Members, objects and rows

What the members of a value of several columns stand for. Such a value consists of one block of
entries for each member, and a member is found in its block: a single node, or a value of several
columns again.

## Main results

* `Denotes.ofFields`: an object stands for the record of what its members stand for.
* `Denotes.ofColumns`: a row of a closed select stands for the element that its columns make up.
* `Denotes.ofTable`: a row of a table stands for the record of its members.
-/

namespace QueryLowering

open Sql Node Result List

variable {n : Node} {entity name : String} {f : View} {leaves entries : List (Path × Node)} {σ : Shape}
variable {shapes : List (String × Shape)} {blocks before after : List (String × List (Path × Node))} {schema : Schema}
variable {sc : Scope} {a : Alias} {S : Standing} {base : Path}

/-! ## Blocks of entries -/

namespace Sql.Node

/-- The entries of named blocks of entries: those of a block stand below its name. -/
def blockEntries (blocks : List (String × List (Path × Node))) : List (Path × Node) :=
  blocks.flatMap fun b => b.2.map fun entry => (b.1 :: entry.1, entry.2)

theorem exists_of_mem_blockEntries {entry : Path × Node} (h : entry ∈ blockEntries blocks) :
    ∃ b ∈ blocks, ∃ inner ∈ b.2, entry = (b.1 :: inner.1, inner.2) := by
  obtain ⟨b, hb, h⟩ := mem_flatMap.1 h
  obtain ⟨inner, hinner, rfl⟩ := mem_map.1 h
  exact ⟨b, hb, inner, hinner, rfl⟩

theorem filterMap_after_of_forall_ne (h : ∀ b ∈ blocks, b.1 ≠ name) :
    (blockEntries blocks).filterMap (fun entry => (entry.1.after? [name]).map (·, entry.2)) = [] := by
  rw [filterMap_eq_nil_iff]
  intro entry hentry
  obtain ⟨b, hb, inner, -, rfl⟩ := exists_of_mem_blockEntries hentry
  simp [Path.after?, h b hb]

theorem find?_of_forall_ne (h : ∀ b ∈ blocks, b.1 ≠ name) : (blockEntries blocks).find? (·.1 == [name]) = none := by
  rw [find?_eq_none]
  intro entry hentry
  obtain ⟨b, hb, inner, -, rfl⟩ := exists_of_mem_blockEntries hentry
  simp [h b hb]

/-- A member is found only among blocks of its name. -/
theorem memberOf?_blockEntries_eq_none (h : ∀ b ∈ blocks, b.1 ≠ name) :
    memberOf? (blockEntries blocks) name = none := by
  unfold memberOf?
  rw [find?_of_forall_ne h]
  simp only [filterMap_after_of_forall_ne h]

/-- A member whose first block is a single node is that node. -/
theorem memberOf?_blockEntries_single (hbefore : ∀ b ∈ before, b.1 ≠ name) :
    memberOf? (blockEntries (before ++ (name, [([], n)]) :: after)) name = some n := by
  have hsplit : blockEntries (before ++ (name, [([], n)]) :: after) =
      blockEntries before ++ ([name], n) :: blockEntries after := by
    simp [blockEntries]
  unfold memberOf?
  rw [hsplit, find?_append, find?_of_forall_ne hbefore]
  simp

/-- A member of only one block, whose paths are not empty, has the entries of the block. -/
theorem memberOf?_blockEntries_nested {block : List (Path × Node)} (hblock : ∀ entry ∈ block, entry.1 ≠ [])
    (hbefore : ∀ b ∈ before, b.1 ≠ name) (hafter : ∀ b ∈ after, b.1 ≠ name) :
    memberOf? (blockEntries (before ++ (name, block) :: after)) name =
      if block = [] then none else some (.composite block) := by
  have hsplit : blockEntries (before ++ (name, block) :: after) =
      blockEntries before ++ (block.map (fun entry => (name :: entry.1, entry.2)) ++ blockEntries after) := by
    simp [blockEntries]
  have hown : (block.map fun entry => (name :: entry.1, entry.2)).filterMap
      (fun entry : Path × Node => (entry.1.after? [name]).map (·, entry.2)) = block := by
    rw [filterMap_map]
    conv_rhs => rw [← filterMap_some (l := block)]
    refine filterMap_congr fun entry hentry => ?_
    simp [Path.after?, hblock entry hentry]
  have hfind : (block.map fun entry => (name :: entry.1, entry.2)).find? (·.1 == [name]) = none := by
    rw [find?_eq_none]
    intro entry hentry
    obtain ⟨inner, hinner, rfl⟩ := mem_map.1 hentry
    simp [hblock inner hinner]
  unfold memberOf?
  rw [hsplit, find?_append, find?_append, find?_of_forall_ne hbefore, hfind, find?_of_forall_ne hafter]
  simp only [filterMap_append, filterMap_after_of_forall_ne hbefore, hown,
    filterMap_after_of_forall_ne hafter, nil_append, append_nil, Option.or_none]
  cases block with
  | nil => rfl
  | cons entry rest => rfl

end Sql.Node

/-! ## What blocks stand for -/

theorem lookup_of_forall₂ {β γ : Type} {R : β → γ → Prop} {xs : List (String × β)}
    {ys : List (String × γ)} (h : List.Forall₂ (fun x y => x.1 = y.1 ∧ R x.2 y.2) xs ys)
    {b : β} (hb : xs.lookup name = some b) : ∃ c, ys.lookup name = some c ∧ R b c := by
  induction h with
  | nil => cases hb
  | @cons x y xs ys hxy _ ih =>
    obtain ⟨k, b'⟩ := x
    obtain ⟨k', c⟩ := y
    obtain ⟨rfl, hR⟩ : k = k' ∧ R b' c := hxy
    rw [lookup_cons] at hb ⊢
    cases hk : name == k with
    | true =>
      rw [hk] at hb
      obtain rfl := Option.some.inj hb
      exact ⟨c, rfl, hR⟩
    | false =>
      rw [hk] at hb
      exact ih hb

theorem lookup_map_eq {ι β : Type} (name : String) (key : ι → String) (g : ι → β) (l : List ι) :
    (l.map fun t => (key t, g t)).lookup name = (l.find? fun t => name == key t).map g := by
  induction l with
  | nil => rfl
  | cons t rest ih =>
    rw [map_cons, lookup_cons, find?_cons]
    cases name == key t with
    | true => rfl
    | false => exact ih

/-- A block of entries stands for a function: it is a single node at the empty path, or a value of
several columns. -/
inductive BlockDenotes (schema : Schema) (sc : Scope) (a : Alias) (S : Standing) :
    List (Path × Node) → Shape → View → Prop
  | single {n : Node} {σ : Shape} {f : View} (hn : Denotes schema sc a S n σ f) :
      BlockDenotes schema sc a S [([], n)] σ f
  | nested {block : List (Path × Node)} {σ : Shape} {f : View} (hblock : ∀ entry ∈ block, entry.1 ≠ [])
      (hn : Denotes schema sc a S (.composite block) σ f) : BlockDenotes schema sc a S block σ f

/-- The member that is found among blocks stands for what its block stands for.

**Proof sketch.** The first block of the name counts. If it is no single node then it stands for
records, so that no other block has its name. -/
theorem denotes_memberOf (hnames : blocks.map (·.1) = shapes.map (·.1))
    (hshapes : shapes.Pairwise fun p q => p.1 = q.1 → p.2 = .scalar ∧ q.2 = .scalar)
    (hblocks : ∀ block τ, blocks.lookup name = some block → shapes.lookup name = some τ →
      BlockDenotes schema sc a S block τ f) (hn : memberOf? (blockEntries blocks) name = some n) :
    ∃ τ, shapes.lookup name = some τ ∧ Denotes schema sc a S n τ f := by
  cases hlookup : blocks.lookup name with
  | none =>
    have hne : ∀ b ∈ blocks, b.1 ≠ name := by
      intro b hb heq
      have h := lookup_eq_none_iff.1 hlookup b hb
      simp [heq] at h
    rw [memberOf?_blockEntries_eq_none hne] at hn
    cases hn
  | some block =>
    obtain ⟨before, after, rfl, hbefore⟩ := lookup_eq_some_iff.1 hlookup
    have hbefore : ∀ b ∈ before, b.1 ≠ name := by
      intro b hb heq
      have h := hbefore b hb
      simp [heq] at h
    rw [map_append, map_cons] at hnames
    obtain ⟨earlier, rest, rfl, hearlier, hrest⟩ := map_eq_append_iff.1 hnames.symm
    obtain ⟨⟨name', τ⟩, later, rfl, hname, hlater⟩ := map_eq_cons_iff.1 hrest
    obtain rfl : name' = name := hname
    have hτ : (earlier ++ (name', τ) :: later).lookup name' = some τ := by
      refine lookup_eq_some_iff.2 ⟨earlier, later, rfl, fun p hp => ?_⟩
      have hp : p.1 ∈ before.map (·.1) := hearlier ▸ mem_map_of_mem hp
      obtain ⟨b, hb, hbp⟩ := mem_map.1 hp
      have := hbefore b hb
      simpa [← hbp] using this.symm
    refine ⟨τ, hτ, ?_⟩
    cases hblocks block τ hlookup hτ with
    | single hdenotes =>
      rw [memberOf?_blockEntries_single hbefore] at hn
      exact Option.some.inj hn ▸ hdenotes
    | nested hblock hdenotes =>
      have hafter : ∀ b ∈ after, b.1 ≠ name' := by
        intro b hb heq
        have hb' : b.1 ∈ later.map (·.1) := hlater ▸ mem_map_of_mem hb
        obtain ⟨q, hq, hqb⟩ := mem_map.1 hb'
        have hpair := (pairwise_append.1 hshapes).2.1
        have hscalar := (rel_of_pairwise_cons hpair hq (heq ▸ hqb.symm)).1
        obtain rfl : τ = .scalar := hscalar
        cases hdenotes.isScalar
      rw [memberOf?_blockEntries_nested hblock hbefore hafter] at hn
      split at hn
      · cases hn
      · exact Option.some.inj hn ▸ hdenotes

theorem Denotes.ofBlocks (hvalue : IsValue (.composite (blockEntries blocks)))
    (hshape : ∀ m row e, S m row e → (f m e).shape = .record shapes)
    (hleaves : ∀ base leaves, sc.flattenEntries schema base (blockEntries blocks) = .ok leaves →
      Columns a S base leaves (.record shapes) f) (hnames : blocks.map (·.1) = shapes.map (·.1))
    (hshapes : shapes.Pairwise fun p q => p.1 = q.1 → p.2 = .scalar ∧ q.2 = .scalar)
    (hblocks : ∀ name block τ, blocks.lookup name = some block → shapes.lookup name = some τ →
      BlockDenotes schema sc a S block τ fun m e => (f m e).member name) :
    Denotes schema sc a S (.composite (blockEntries blocks)) (.record shapes) f := by
  have hmember : ∀ name n, sc.resolveMember schema (.composite (blockEntries blocks)) name = .ok n →
      ∃ τ, shapes.lookup name = some τ ∧ Denotes schema sc a S n τ fun m e => (f m e).member name :=
    fun name n hn => denotes_memberOf hnames hshapes (hblocks name) (orThrow_eq_ok.1 hn)
  refine .record hvalue rfl hshape hleaves (fun name n hn => ?_) fun name n τ hn hτ => ?_
  · obtain ⟨τ, hτ, -⟩ := hmember name n hn
    exact ⟨τ, hτ⟩
  · obtain ⟨τ', hτ', hdenotes⟩ := hmember name n hn
    obtain rfl : τ = τ' := Option.mem_unique hτ hτ'
    exact hdenotes

theorem Element.memberShapes_eq (members : List (String × Element)) :
    Element.memberShapes members = members.map fun p => (p.1, p.2.shape) := by
  induction members with
  | nil => rfl
  | cons p rest ih =>
    obtain ⟨name, e⟩ := p
    rw [memberShapes, ih, map_cons]

/-! ## Objects -/

/-- The entries of a node below the name of a member. -/
def Sql.Node.block : Node → List (Path × Node)
  | .composite entries => entries
  | n => [([], n)]

theorem Sql.Node.memberEntries_eq (name : String) (n : Node) :
    memberEntries name n = n.block.map fun entry => (name :: entry.1, entry.2) := by
  cases n with
  | composite entries => rfl
  | _ => rfl

theorem Sql.Node.ofMembers_eq (members : List (String × Node)) :
    ofMembers members = .composite (blockEntries (members.map fun p => (p.1, p.2.block))) := by
  unfold ofMembers blockEntries
  rw [flatMap_map]
  simp only [memberEntries_eq]

namespace Scope

theorem flattenEntries_append {xs ys : List (Path × Node)} (h : sc.flattenEntries schema base (xs ++ ys) = .ok leaves) :
    ∃ ls ms, sc.flattenEntries schema base xs = .ok ls ∧ sc.flattenEntries schema base ys = .ok ms ∧
      leaves = ls ++ ms := by
  induction xs generalizing leaves with
  | nil => exact ⟨[], leaves, rfl, h, rfl⟩
  | cons x rest ih =>
    obtain ⟨p, n⟩ := x
    rw [cons_append, flattenEntries] at h
    simp only [bind_eq_ok, pure_eq_ok] at h
    obtain ⟨ns, hns, others, hothers, rfl⟩ := h
    obtain ⟨ls, ms, hls, hms, rfl⟩ := ih hothers
    refine ⟨ns ++ ls, ms, ?_, hms, (append_assoc ..).symm⟩
    rw [flattenEntries]
    simp only [bind_eq_ok, pure_eq_ok]
    exact ⟨ns, hns, ls, hls, rfl⟩

theorem flattenEntries_below (name : String) (entries : List (Path × Node)) :
    sc.flattenEntries schema base (entries.map fun entry => (name :: entry.1, entry.2)) =
      sc.flattenEntries schema (base ++ [name]) entries := by
  induction entries with
  | nil => rfl
  | cons entry rest ih =>
    obtain ⟨p, n⟩ := entry
    have hpath : base ++ name :: p = base ++ [name] ++ p := append_cons base name p
    rw [map_cons, flattenEntries, flattenEntries, ih, hpath]

/-- The entries of a member flatten as the member does. -/
theorem flattenEntries_block
    (h : sc.flattenEntries schema base (n.block.map fun entry => (name :: entry.1, entry.2)) = .ok leaves) :
    sc.flatten schema (base ++ [name]) n = .ok leaves := by
  rw [flattenEntries_below] at h
  have hother : ∀ n : Node, sc.flattenEntries schema (base ++ [name]) [([], n)] = .ok leaves →
      sc.flatten schema (base ++ [name]) n = .ok leaves := by
    intro n h
    rw [flattenEntries, append_nil] at h
    simp only [bind_eq_ok, pure_eq_ok] at h
    obtain ⟨ls, hls, ms, hms, rfl⟩ := h
    obtain rfl : [] = ms := Except.ok.inj hms
    rw [hls, append_nil]
  cases n with
  | composite entries => exact h
  | _ => exact hother _ h

end Scope

/-- A member of an object: its node, the shape of its values and what it stands for. -/
structure Field where
  name : String
  node : Node
  shape : Shape
  view : View

theorem Columns.cons {rest : List (Path × Node)} {g : Scalars → Element → List (String × Element)}
    (h : Columns a S (base ++ [name]) leaves σ f)
    (hrest : Columns a S base rest (.record shapes) fun m e => .record (g m e)) :
    Columns a S base (leaves ++ rest) (.record ((name, σ) :: shapes)) fun m e => .record ((name, f m e) :: g m e) := by
  refine ⟨?_, forall_mem_append.2 ⟨h.scalar, hrest.scalar⟩, fun m row e he => ?_⟩
  · rw [map_append, h.paths, hrest.paths, Shape.paths, Shape.paths, Shape.memberPaths]
  · rw [map_append, h.values m row e he, hrest.values m row e he, Element.values, Element.values,
      Element.memberValues, map_append]

theorem columns_fields (fields : List Field) (h : ∀ t ∈ fields, Denotes schema sc a S t.node t.shape t.view)
    (hleaves : sc.flattenEntries schema base (blockEntries (fields.map fun t => (t.name, t.node.block))) = .ok leaves) :
    Columns a S base leaves (.record (fields.map fun t => (t.name, t.shape)))
      fun m e => .record (fields.map fun t => (t.name, t.view m e)) := by
  induction fields generalizing leaves with
  | nil =>
    obtain rfl : [] = leaves := Except.ok.inj hleaves
    exact ⟨rfl, forall_mem_nil _, fun m row e he => rfl⟩
  | cons t rest ih =>
    rw [forall_mem_cons] at h
    rw [map_cons, blockEntries, flatMap_cons] at hleaves
    obtain ⟨ls, ms, hls, hms, rfl⟩ := Scope.flattenEntries_append hleaves
    exact (h.1.columns (Scope.flattenEntries_block hls)).cons (ih h.2 hms)

theorem Denotes.block (h : Denotes schema sc a S n σ f) :
    BlockDenotes schema sc a S n.block σ f := by
  cases n with
  | composite entries =>
    cases h.isValue with
    | composite hpaths _ => exact .nested hpaths h
    | scalar hn => cases hn
  | _ => exact .single h

theorem isValue_blockEntries
    (h : ∀ b ∈ blocks, ∀ entry ∈ b.2, entry.2.IsValue) : IsValue (.composite (blockEntries blocks)) := by
  refine .composite (fun entry hentry => ?_) fun entry hentry => ?_
  · obtain ⟨b, hb, inner, hinner, rfl⟩ := exists_of_mem_blockEntries hentry
    exact cons_ne_nil _ _
  · obtain ⟨b, hb, inner, hinner, rfl⟩ := exists_of_mem_blockEntries hentry
    exact h b hb inner hinner

theorem Sql.Node.IsValue.block (h : n.IsValue) : ∀ entry ∈ n.block, entry.2.IsValue := by
  cases n with
  | composite entries =>
    cases h with
    | composite _ hentries => exact hentries
    | scalar hn => cases hn
  | _ => exact forall_mem_singleton.2 h

/-- An object stands for the record of what its members stand for. -/
theorem Denotes.ofFields (fields : List Field) (h : ∀ t ∈ fields, Denotes schema sc a S t.node t.shape t.view)
    (hnames : (fields.map (·.name)).Nodup) : Denotes schema sc a S (.ofMembers (fields.map fun t => (t.name, t.node)))
      (.record (fields.map fun t => (t.name, t.shape)))
      fun m e => .record (fields.map fun t => (t.name, t.view m e)) := by
  rw [ofMembers_eq, map_map]
  refine .ofBlocks (isValue_blockEntries fun b hb => ?_) (fun m row e he => ?_)
    (fun base leaves => columns_fields fields h) ?_ ?_ fun name block τ hblock hτ => ?_
  · obtain ⟨t, ht, rfl⟩ := mem_map.1 hb
    exact (h t ht).isValue.block
  · rw [Element.shape, Element.memberShapes_eq, map_map]
    refine congrArg Shape.record (map_congr_left fun t ht => ?_)
    exact congrArg (t.name, ·) ((h t ht).shape_eq he)
  · rw [map_map, map_map]
    rfl
  · rw [pairwise_map]
    exact (pairwise_map.1 hnames).imp fun hne heq => absurd heq hne
  · -- the entries, the shape and the value of the member come from the same field
    have hblock : (fields.find? fun t => name == t.name).map (·.node.block) = some block :=
      (lookup_map_eq ..).symm.trans hblock
    obtain ⟨t, ht, rfl⟩ := Option.map_eq_some_iff.1 hblock
    rw [lookup_map_eq, ht] at hτ
    obtain rfl : t.shape = τ := Option.some.inj hτ
    have hview : (fun m e => (Element.record (fields.map fun t => (t.name, t.view m e))).member name) = t.view := by
      funext m e
      rw [Element.member, lookup_map_eq, ht]
      rfl
    rw [hview]
    exact (h t (mem_of_find?_eq_some ht)).block

/-! ## Rows of closed selects -/

theorem Sql.Node.blockEntries_cons (b : String × List (Path × Node)) (blocks : List (String × List (Path × Node))) :
    blockEntries (b :: blocks) = (b.2.map fun entry => (b.1 :: entry.1, entry.2)) ++ blockEntries blocks :=
  flatMap_cons

theorem Element.forall₂_memberShapes (members : List (String × Element)) :
    List.Forall₂ (fun p s => p.1 = s.1 ∧ p.2.shape = s.2) members (memberShapes members) := by
  rw [memberShapes_eq, forall₂_map_right_iff, forall₂_same]
  exact fun p _ => ⟨rfl, rfl⟩

theorem Element.length_values (e : Element) : e.values.length = (e.shape.paths []).length := by
  rw [← map_snd_leaves [], ← map_fst_leaves [], length_map, length_map]

/-- Entries at the paths of a record are those of one block for each member. -/
theorem exists_blocks (h : entries.map (·.1) = Shape.memberPaths [] shapes) :
    ∃ blocks, entries = blockEntries blocks ∧
      List.Forall₂ (fun b s => b.1 = s.1 ∧ b.2.map (·.1) = s.2.paths []) blocks shapes := by
  induction shapes generalizing entries with
  | nil =>
    obtain rfl : entries = [] := map_eq_nil_iff.1 h
    exact ⟨[], rfl, .nil⟩
  | cons s rest ih =>
    obtain ⟨name, σ⟩ := s
    have hpaths : σ.paths [name] = (σ.paths []).map (name :: ·) := σ.paths_append [name] []
    rw [Shape.memberPaths, nil_append, hpaths] at h
    obtain ⟨first, others, rfl, hfirst, hothers⟩ := map_eq_append_iff.1 h
    obtain ⟨blocks, rfl, hblocks⟩ := ih hothers
    refine ⟨(name, first.map fun entry => (entry.1.tail, entry.2)) :: blocks, ?_, .cons ⟨rfl, ?_⟩ hblocks⟩
    · rw [blockEntries_cons, map_map]
      refine congrArg (· ++ blockEntries blocks) ?_
      conv_lhs => rw [← map_id first]
      refine map_congr_left fun entry hentry => ?_
      have hmem : entry.1 ∈ (σ.paths []).map (name :: ·) := hfirst ▸ mem_map_of_mem hentry
      obtain ⟨p, -, hp⟩ := mem_map.1 hmem
      obtain ⟨q, n⟩ := entry
      obtain rfl : name :: p = q := hp
      rfl
    · have htails := congrArg (List.map List.tail) hfirst
      rw [map_map, map_map] at htails
      rw [map_map]
      refine htails.trans ?_
      exact map_id _

/-- The values of the entries of blocks are those of the members. -/
theorem values_blocks {m : Scalars} {row : Row} {members : List (String × Element)}
    (hblocks : List.Forall₂ (fun b s => b.1 = s.1 ∧ b.2.map (·.1) = s.2.paths []) blocks (Element.memberShapes members))
    (h : (blockEntries blocks).map (·.2.value? m a row) = (Element.memberValues members).map some) :
    List.Forall₂ (fun b p => b.1 = p.1 ∧ b.2.map (·.2.value? m a row) = p.2.values.map some) blocks
      members := by
  induction members generalizing blocks with
  | nil =>
    cases hblocks
    exact .nil
  | cons p rest ih =>
    obtain ⟨name, e⟩ := p
    rw [Element.memberShapes] at hblocks
    obtain ⟨b, blocks, ⟨hname, hpaths⟩, hrest, rfl⟩ := forall₂_cons_right_iff.1 hblocks
    rw [blockEntries_cons, map_append, map_map, Element.memberValues, map_append] at h
    have hlength : b.2.length = e.values.length := by
      have hpaths := congrArg List.length hpaths
      rw [length_map] at hpaths
      rw [e.length_values, hpaths]
    obtain ⟨hfirst, hothers⟩ := append_inj h (by simpa using hlength)
    exact .cons ⟨hname, hfirst⟩ (ih hrest hothers)

theorem Scope.flattenEntries_of_isScalar (h : ∀ entry ∈ entries, entry.2.isScalar = true) :
    sc.flattenEntries schema base entries = .ok (entries.map fun entry => (base ++ entry.1, entry.2)) := by
  induction entries with
  | nil => rfl
  | cons entry rest ih =>
    obtain ⟨p, n⟩ := entry
    rw [forall_mem_cons] at h
    rw [flattenEntries, flatten_of_isScalar _ h.1, ih h.2]
    rfl

theorem Columns.below (h : Columns a S [] entries σ f) (base : Path) :
    Columns a S base (entries.map fun entry => (base ++ entry.1, entry.2)) σ f := by
  refine ⟨?_, fun entry hentry => ?_, fun m row e he => ?_⟩
  · have hpaths := σ.paths_append base []
    rw [append_nil] at hpaths
    rw [map_map, hpaths, ← h.paths, map_map]
    rfl
  · obtain ⟨inner, hinner, rfl⟩ := mem_map.1 hentry
    exact h.scalar inner hinner
  · rw [map_map]
    exact h.values m row e he

/-- Scalar nodes at the paths of a shape stand for what their values make up.

**Proof sketch.** Induction on the shape. The nodes of a record are split into one block for each of
its members, and the values are split alike, since there are as many of them in each block. -/
theorem Columns.denotes (hσ : σ.Wf)
    (h : Columns a S [] entries σ f) (hshape : ∀ m row e, S m row e → (f m e).shape = σ) :
    BlockDenotes schema sc a S entries σ f := by
  induction hσ generalizing entries f with
  | scalar =>
    have hlength := congrArg List.length h.paths
    rw [length_map] at hlength
    obtain ⟨⟨p, n⟩, rfl⟩ := length_eq_one_iff.1 hlength
    obtain rfl : p = [] := head_eq_of_cons_eq h.paths
    refine .single (.scalar (h.scalar _ (mem_singleton_self _)) fun m row e he => ?_)
    have hvalues := h.values m row e he
    have hs := hshape m row e he
    cases hf : f m e with
    | scalar v =>
      rw [hf] at hvalues
      exact ⟨v, rfl, head_eq_of_cons_eq hvalues⟩
    | record members =>
      rw [hf] at hs
      cases hs
  | @record shapes hnames _ ih =>
    obtain ⟨blocks, rfl, hblocks⟩ := exists_blocks h.paths
    have hscalar : ∀ b ∈ blocks, ∀ entry ∈ b.2, entry.2.isScalar = true := fun b hb entry hentry =>
      h.scalar (b.1 :: entry.1, entry.2) (mem_flatMap.2 ⟨b, hb, mem_map_of_mem hentry⟩)
    have hvalue : IsValue (.composite (blockEntries blocks)) :=
      isValue_blockEntries fun b hb entry hentry => .scalar (hscalar b hb entry hentry)
    refine .nested ?_ (.ofBlocks hvalue hshape ?_ ?_ hnames fun name block τ hblock hτ => ?_)
    · cases hvalue with
      | composite hpaths _ => exact hpaths
      | scalar hn => cases hn
    · intro base leaves hleaves
      rw [Scope.flattenEntries_of_isScalar h.scalar] at hleaves
      exact Except.ok.inj hleaves ▸ h.below base
    · rw [← forall₂_eq_eq_eq, forall₂_map_left_iff, forall₂_map_right_iff]
      exact hblocks.imp fun _ _ h => h.1
    · obtain ⟨τ', hτ', hpaths⟩ := lookup_of_forall₂ (R := fun b (s : Shape) => b.map (·.1) = s.paths []) hblocks hblock
      obtain rfl : τ = τ' := Option.mem_unique hτ hτ'
      obtain ⟨before, after, hsplit, -⟩ := lookup_eq_some_iff.1 hblock
      obtain ⟨earlier, later, hshapes, -⟩ := lookup_eq_some_iff.1 hτ
      have hmember : ∀ m row e, S m row e → ((f m e).member name).shape = τ ∧
          block.map (·.2.value? m a row) = ((f m e).member name).values.map some := by
        intro m row e he
        have hs := hshape m row e he
        have hvalues := h.values m row e he
        cases hf : f m e with
        | scalar v =>
          rw [hf] at hs
          cases hs
        | record members =>
          rw [hf] at hs hvalues
          rw [Element.shape, Shape.record.injEq] at hs
          obtain ⟨x, hx, hxvalues⟩ := lookup_of_forall₂
            (R := fun b (e : Element) => b.map (·.2.value? m a row) = e.values.map some)
            (values_blocks (hs ▸ hblocks) hvalues) hblock
          obtain ⟨τ', hτ', hxshape⟩ := lookup_of_forall₂ (R := fun e s => e.shape = s)
            (Element.forall₂_memberShapes members) hx
          rw [Element.member, hx]
          rw [hs] at hτ'
          exact ⟨hxshape.trans (Option.mem_unique hτ' hτ), hxvalues⟩
      refine ih (name, τ) (hshapes ▸ mem_append_right _ mem_cons_self)
        ⟨hpaths, hscalar (name, block) (hsplit ▸ mem_append_right _ mem_cons_self), ?_⟩ ?_
      · exact fun m row e he => (hmember m row e he).2
      · exact fun m row e he => (hmember m row e he).1

theorem Sql.Node.resolveColumns_eq (columns : List (Path × String)) (name : String) :
    Scope.resolveColumns a columns [name] = memberOf? (columns.map fun c => (c.1, .column a c.2)) name := by
  unfold Scope.resolveColumns memberOf?
  rw [find?_map, filterMap_map]
  have hfind : (fun c : Path × String => c.1 == [name]) =
      (fun entry : Path × Node => entry.1 == [name]) ∘ fun c => (c.1, .column a c.2) := rfl
  rw [← hfind]
  cases columns.find? (fun c => c.1 == [name]) with
  | none => rfl
  | some c => rfl

/-- A row of a closed select stands for the element that its columns make up. -/
theorem Denotes.ofColumns {columns : List (Path × String)} {rowEntity : Option String}
    (ha : sc.shape? a = some (.columns columns rowEntity)) (hσ : σ.Wf)
    (hcolumns : Columns a S [] (columns.map fun c => (c.1, .column a c.2)) σ fun _ e => e)
    (hshape : ∀ m row e, S m row e → e.shape = σ) : Denotes schema sc a S (sc.sourceValue a) σ fun _ e => e := by
  have hblock : BlockDenotes schema sc a S _ σ _ := hcolumns.denotes hσ hshape
  have hshape? : (sc.shape? a).bind SourceShape.single? = (SourceShape.columns columns rowEntity).single? := by
    rw [ha, Option.bind_some]
  unfold Scope.sourceValue
  rw [hshape?]
  generalize hentries : columns.map (fun c => (c.1, Node.column a c.2)) = entries at hblock
  cases hblock with
  | single hn =>
    obtain ⟨⟨p, name⟩, rfl, hc⟩ := map_eq_singleton_iff.1 hentries
    obtain ⟨rfl, rfl⟩ := Prod.mk.inj hc
    exact hn
  | nested hpaths hn =>
    have hsingle : (SourceShape.columns columns rowEntity).single? = none := by
      unfold SourceShape.single?
      split
      · next name _ heq =>
        obtain ⟨rfl, -⟩ := SourceShape.columns.inj heq
        exact absurd rfl (hpaths ([], .column a name) (hentries ▸ mem_singleton_self _))
      · rfl
    rw [hsingle]
    subst hentries
    cases hn with
    | scalar hn => cases hn
    | record _ _ _ hleaves hknown hmembers =>
      have hresolve : ∀ name n, sc.resolveMember schema (.source a) name = .ok n →
          sc.resolveMember schema (.composite (columns.map fun c => (c.1, .column a c.2))) name = .ok n := by
        intro name n hn
        simp only [Scope.resolveMember, Scope.resolvePath, Scope.shape, ha, bind_eq_ok,
          orThrow_eq_ok, Option.some.injEq] at hn ⊢
        obtain ⟨shape, rfl, hn⟩ := hn
        rw [orThrow_eq_ok, resolveColumns_eq] at hn
        exact hn
      refine .record (.source a) rfl hshape (fun base leaves hflat => ?_)
        (fun name n hn => hknown name n (hresolve name n hn)) fun name n τ hn => hmembers name n τ (hresolve name n hn)
      simp only [Scope.flatten, Scope.sourceLeaves, Scope.shape, ha, bind_eq_ok, pure_eq_ok,
        orThrow_eq_ok, Option.some.injEq] at hflat
      obtain ⟨ls, ⟨shape, rfl, hls⟩, rfl⟩ := hflat
      obtain rfl := pure_eq_ok.1 hls
      exact hcolumns.below base

/-! ## Rows of tables -/

theorem Schema.columns_eq_ok {cs : List Column} :
    schema.columns entity = .ok cs ↔ ∃ e, schema.find? entity = some e ∧ e.columns = cs := by
  simp only [Schema.columns, Schema.entity, bind_eq_ok, orThrow_eq_ok, pure_eq_ok]

theorem Shape.memberPaths_scalars (base : Path) (cs : List Column) :
    memberPaths base (cs.map fun c => (c.member, .scalar)) = cs.map fun c => base ++ [c.member] := by
  induction cs with
  | nil => rfl
  | cons c rest ih =>
    rw [map_cons, memberPaths, paths, ih]
    rfl

theorem Element.memberValues_scalars (r : String → Literal) (cs : List Column) :
    memberValues (cs.map fun c => (c.member, .scalar (r c.column))) = cs.map fun c => r c.column := by
  induction cs with
  | nil => rfl
  | cons c rest ih =>
    rw [map_cons, memberValues, values, ih]
    rfl

theorem Sql.Node.value?_column (m : Scalars) (a : Alias) (row : Row) (name : String) :
    (Node.column a name).value? m a row = row name := by
  simp [value?]

/-- A row of the table of an entity stands for the record of its members. -/
theorem Denotes.ofTable {e : Entity} (ha : sc.shape? a = some (.entity entity)) (hentity : schema.find? entity = some e)
    (hS : ∀ m row x, S m row x → ∃ r, x = Element.ofRow e.columns r ∧ row = fun name => some (r name)) :
    Denotes schema sc a S (sc.sourceValue a) (.ofEntity schema entity) fun _ e => e := by
  have hsource : sc.sourceValue a = .source a := by
    unfold Scope.sourceValue
    rw [ha]
    rfl
  have hcolumns : schema.columns entity = .ok e.columns := Schema.columns_eq_ok.2 ⟨e, hentity, rfl⟩
  have hshapes : Shape.ofEntity schema entity = .record (e.columns.map fun c => (c.member, .scalar)) := by
    rw [Shape.ofEntity, hentity]
    rfl
  have hresolve : ∀ name n, sc.resolveMember schema (.source a) name = .ok n →
      ∃ c, (e.columns.find? fun c => name == c.member) = some c ∧ n = .column a c.column := by
    intro name n hn
    have hcomm : (fun c : Column => c.member == name) = fun c => name == c.member :=
      funext fun c => BEq.comm
    simp only [Scope.resolveMember, Scope.resolvePath, Scope.shape, ha, bind_eq_ok,
      orThrow_eq_ok, Option.some.injEq] at hn
    obtain ⟨shape, rfl, hn⟩ := hn
    simp only [Schema.columnName, hcolumns, bind_eq_ok, orThrow_eq_ok, pure_eq_ok, Except.ok.injEq] at hn
    obtain ⟨column, ⟨cs, rfl, c, hc, rfl⟩, rfl⟩ := hn
    exact ⟨c, hcomm ▸ hc, rfl⟩
  rw [hsource, hshapes]
  refine .record (.source a) rfl (fun m row x hx => ?_) (fun base leaves hflat => ?_)
    (fun name n hn => ?_) fun name n τ hn hτ => ?_
  · obtain ⟨r, rfl, -⟩ := hS m row x hx
    rw [Element.ofRow, Element.shape, Element.memberShapes_eq, map_map]
    rfl
  · simp only [Scope.flatten, Scope.sourceLeaves, Scope.shape, ha, bind_eq_ok, pure_eq_ok,
      orThrow_eq_ok, Option.some.injEq] at hflat
    obtain ⟨ls, ⟨shape, rfl, hls⟩, rfl⟩ := hflat
    simp only [hcolumns, bind_eq_ok, pure_eq_ok, Except.ok.injEq] at hls
    obtain ⟨cs, rfl, rfl⟩ := hls
    rw [map_map]
    refine ⟨?_, fun leaf hleaf => ?_, fun m row x hx => ?_⟩
    · rw [map_map, Shape.paths, Shape.memberPaths_scalars]
      rfl
    · obtain ⟨c, -, rfl⟩ := mem_map.1 hleaf
      rfl
    · obtain ⟨r, rfl, rfl⟩ := hS m row x hx
      rw [map_map, Element.ofRow, Element.values, Element.memberValues_scalars, map_map]
      exact map_congr_left fun c _ => value?_column m a (fun name => some (r name)) c.column
  · obtain ⟨c, hc, -⟩ := hresolve name n hn
    rw [lookup_map_eq, hc]
    exact ⟨.scalar, rfl⟩
  · obtain ⟨c, hc, rfl⟩ := hresolve name n hn
    rw [lookup_map_eq, hc] at hτ
    obtain rfl : Shape.scalar = τ := Option.some.inj hτ
    refine .scalar rfl fun m row x hx => ?_
    obtain ⟨r, rfl, rfl⟩ := hS m row x hx
    refine ⟨r c.column, ?_, value?_column ..⟩
    rw [Element.ofRow, Element.member, lookup_map_eq, hc]
    rfl

theorem Shape.wf_ofEntity (schema : Schema) (entity : String) : (ofEntity schema entity).Wf := by
  refine .record ?_ fun p hp => ?_
  · rw [pairwise_map]
    exact pairwise_of_forall fun _ _ _ => ⟨rfl, rfl⟩
  · obtain ⟨c, -, rfl⟩ := mem_map.1 hp
    exact .scalar

end QueryLowering
