import QueryLowering.Proofs.Bodies
import QueryLowering.Proofs.ColumnNames

/-!
# Closed selects and their elements

The selects of a chain have one data source and only clauses that filter, project, page or drop
duplicates. The rows of the data source stand for elements, and so the rows of the select stand for the
elements that its clauses leave. Closing the select gives each single value of an element a column of
its own, hence a new select that reads the closed one has the same elements.

## Main results

* `Reads.close`: a closed select is read as the elements of the select.
* `Reads.wrap`: the select that reads the closed select has the same elements.
-/

namespace QueryLowering

open Sql List

variable {e : Element} {columns : List OutputColumn} {condition : Option Node} {n : Node} {contents : Contents}
variable {ps : List (Row × Element)} {es : List Element} {d : Derived} {m : Scalars} {a : Alias} {schema : Schema}
variable {sc sc' : Scope} {s s' : Select} {r : Relation} {skip top : Option Nat} {σ : Shape}

/-! ## Pages and duplicates -/

section

variable {α β : Type} {same : β → β → Bool}

/-- What holds of a list if it holds of the rest without the duplicates of the first one. -/
theorem eraseDupsBy_induction (same : β → β → Bool) {P : List β → Prop} (nil : P [])
    (cons : ∀ y rest, P (rest.filter fun b => decide (same b y = false)) → P (y :: rest)) : ∀ l, P l
  | [] => nil
  | y :: rest =>
    have := length_filter_le (fun b => decide (same b y = false)) rest
    cons y rest (eraseDupsBy_induction same nil cons _)
termination_by l => l.length
decreasing_by exact Nat.lt_succ_of_le this

theorem mem_of_mem_eraseDupsBy {l : List β} {x : β} (h : x ∈ l.eraseDupsBy same) : x ∈ l := by
  induction l using eraseDupsBy_induction same with
  | nil => exact h
  | cons y rest ih =>
    rw [eraseDupsBy_cons, mem_cons] at h
    rcases h with rfl | h
    · exact mem_cons_self
    · exact mem_cons_of_mem _ (mem_of_mem_filter (ih h))

/-- Dropping duplicates a second time changes nothing. -/
theorem eraseDupsBy_eraseDupsBy (l : List β) : (l.eraseDupsBy same).eraseDupsBy same = l.eraseDupsBy same := by
  induction l using eraseDupsBy_induction same with
  | nil => rfl
  | cons y rest ih =>
    have hkeep : ((rest.filter fun b => decide (same b y = false)).eraseDupsBy same).filter
        (fun b => decide (same b y = false)) = (rest.filter fun b => decide (same b y = false)).eraseDupsBy same :=
      filter_eq_self.2 fun x hx => (mem_filter.1 (mem_of_mem_eraseDupsBy hx)).2
    rw [eraseDupsBy_cons, eraseDupsBy_cons, hkeep, ih]

/-- Duplicates may be dropped before or after a function is applied that tells them apart alike. -/
theorem map_eraseDupsBy {alike : α → α → Bool} {f : α → β} {l : List α}
    (h : ∀ x ∈ l, ∀ y ∈ l, same (f x) (f y) = alike x y) :
    (l.eraseDupsBy alike).map f = (l.map f).eraseDupsBy same := by
  induction l using eraseDupsBy_induction alike with
  | nil => rfl
  | cons y rest ih =>
    have hfilter : (rest.map f).filter (fun b => decide (same b (f y) = false)) =
        (rest.filter fun b => decide (alike b y = false)).map f := by
      rw [filter_map]
      refine congrArg (List.map f) (filter_congr fun x hx => ?_)
      rw [Function.comp_apply, h x (mem_cons_of_mem _ hx) y mem_cons_self]
    have hsub : ∀ x ∈ rest.filter (fun b => decide (alike b y = false)), x ∈ y :: rest :=
      fun x hx => mem_cons_of_mem _ (mem_of_mem_filter hx)
    rw [map_cons, eraseDupsBy_cons, eraseDupsBy_cons, map_cons, hfilter,
      ih fun x hx z hz => h x (hsub x hx) z (hsub z hz)]

theorem map_page (f : α → β) (skip top : Option Nat) (l : List α) :
    (page skip top l).map f = page skip top (l.map f) := by
  unfold page
  cases top with
  | none => exact map_drop
  | some n => rw [map_take, map_drop]

end

/-! ## Output rows -/

/-- The output row of an element: its single values under the names of output columns. -/
def Element.cells (columns : List OutputColumn) (e : Element) : List Cell :=
  (columns.zip e.values).map fun p => ⟨p.1.path, p.1.name, p.2⟩

namespace Element

section

variable (h : columns.map (·.path) = e.shape.paths [])

include h

theorem length_columns : columns.length = e.values.length := by
  have h := congrArg List.length h
  rw [length_map] at h
  rw [h, e.length_values]

theorem map_value_cells : (e.cells columns).map (·.value) = e.values := by
  rw [cells, map_map]
  exact map_snd_zip (Nat.le_of_eq (length_columns h).symm)

theorem map_name_cells : (e.cells columns).map (·.name) = columns.map (·.name) := by
  have hfst : (columns.zip e.values).map (·.1) = columns := map_fst_zip (Nat.le_of_eq (length_columns h))
  conv_rhs => rw [← hfst]
  rw [cells, map_map, map_map]
  rfl

/-- The output row of an element has its single values at their paths. -/
theorem leaves_cells : Cell.leaves (e.cells columns) = e.leaves [] := by
  have hleaves : e.leaves [] = (e.shape.paths []).zip e.values := by
    rw [← map_fst_leaves, ← map_snd_leaves [], zip_map']
    exact (map_id _).symm
  rw [hleaves, ← h, Cell.leaves, cells, map_map, zip_map_left]
  rfl

end

/-- Output rows are duplicates if their elements are. -/
theorem alike_cells (m : Scalars) {f : Element} (he : columns.map (·.path) = e.shape.paths [])
    (hf : columns.map (·.path) = f.shape.paths []) :
    Cell.alike m (e.cells columns) (f.cells columns) = e.alike m f := by
  rw [Cell.alike, map_value_cells he, map_value_cells hf, alike, map_snd_leaves, map_snd_leaves]

end Element

/-- Under names that differ, each value of an output row is found by its name. -/
theorem Sql.Cell.row_of_mem {cells : List Cell} (hnames : (cells.map (·.name)).Nodup) {c : Cell}
    (hc : c ∈ cells) : Cell.row cells c.name = some c.value := by
  induction cells with
  | nil => cases hc
  | cons d rest ih =>
    rw [map_cons, nodup_cons] at hnames
    rw [row, find?_cons]
    rcases mem_cons.1 hc with rfl | hc
    · rw [beq_self_eq_true]
      rfl
    · have hne : (d.name == c.name) = false := by
        rw [beq_eq_false_iff_ne]
        rintro heq
        exact hnames.1 (heq ▸ mem_map_of_mem hc)
      rw [hne]
      exact ih hnames.2 hc

theorem Element.row_cells (hpaths : columns.map (·.path) = e.shape.paths []) (hnames : (columns.map (·.name)).Nodup) :
    columns.map (fun c => Cell.row (e.cells columns) c.name) = e.values.map some := by
  have hcells : ((e.cells columns).map (·.name)).map (Cell.row (e.cells columns)) =
      ((e.cells columns).map (·.value)).map some := by
    rw [map_map, map_map]
    refine map_congr_left fun c hc => Cell.row_of_mem ?_ hc
    rw [map_name_cells hpaths]
    exact hnames
  rw [map_name_cells hpaths, map_value_cells hpaths, map_map] at hcells
  exact hcells

/-! ## Reading a select -/

theorem outputRow?_eq {row : Row} {vs : List Literal} (h : columns.map (·.expr.value? m a row) = vs.map some) :
    outputRow? m a columns row = some ((columns.zip vs).map fun p => ⟨p.1.path, p.1.name, p.2⟩) := by
  induction columns generalizing vs with
  | nil =>
    obtain rfl := map_eq_nil_iff.1 h.symm
    rfl
  | cons c rest ih =>
    rw [map_cons] at h
    obtain ⟨v, vs, rfl, hv, hvs⟩ := map_eq_cons_iff.1 h.symm
    have hrest := ih hvs.symm
    unfold outputRow? at hrest ⊢
    rw [mapM_cons, ← hv, hrest]
    rfl

/-- The rows of pairs on which a condition is true. -/
theorem kept?_eq {pairs : List (Row × Element)}
    (h : ∀ p ∈ pairs, (keeps? m a p.1 condition).isSome) : kept? m a condition (pairs.map (·.1)) =
      some ((pairs.filter fun p => keeps? m a p.1 condition == some true).map (·.1)) := by
  induction pairs with
  | nil => rfl
  | cons p rest ih =>
    rw [forall_mem_cons] at h
    obtain ⟨keep, hkeep⟩ := Option.isSome_iff_exists.1 h.1
    rw [map_cons, kept?, ih h.2, hkeep, filter_cons, hkeep]
    cases keep <;> rfl

/-! ## Selects of chains -/

/-- The elements that rows stand for on which a condition is true. -/
def keptElements (m : Scalars) (a : Alias) (condition : Option Node) (pairs : List (Row × Element)) : List Element :=
  (pairs.filter fun p => keeps? m a p.1 condition == some true).map (·.2)

/-- The elements without duplicates, if those are to be dropped. -/
def deduplicated (m : Scalars) (distinct : Bool) (es : List Element) : List Element :=
  if distinct then es.eraseDupsBy (Element.alike m) else es

/-- The node of a number of rows. -/
def countNode (n : Nat) : Node := .literal (.int n)

theorem count?_countNode (n : Option Nat) : count? (n.map countNode) = some n := by
  cases n <;> rfl

/-! ## Trees without common table expressions -/

namespace Sql

/-- A relation in which no select declares a common table expression. -/
def Relation.IsBare (r : Relation) : Prop := r.change withoutCtes = r ∧ r.harvest declaredCtes = []

namespace Node

theorem bare_of_isScalar (hn : n.isScalar = true) :
    n.change withoutCtes = n ∧ n.harvest declaredCtes = [] := by
  fun_induction isScalar n with
  | case1 l => exact ⟨rfl, rfl⟩
  | case2 a name => exact ⟨rfl, rfl⟩
  | case3 op left right ihleft ihright =>
    obtain ⟨hleft, hright⟩ := Bool.and_eq_true_iff.1 hn
    obtain ⟨hl, hl'⟩ := ihleft hleft
    obtain ⟨hr, hr'⟩ := ihright hright
    refine ⟨?_, ?_⟩
    · change binary op (left.change withoutCtes) (right.change withoutCtes) = _
      rw [hl, hr]
    · change left.harvest declaredCtes ++ right.harvest declaredCtes = _
      rw [hl', hr', append_nil]
  | case4 e ih =>
    obtain ⟨he, he'⟩ := ih (Bool.and_eq_true_iff.1 hn).2
    exact ⟨congrArg (unary .not) he, he'⟩
  | case5 e ih =>
    obtain ⟨he, he'⟩ := ih hn
    exact ⟨congrArg (unary .minus) he, he'⟩
  | case6 e negated ih =>
    obtain ⟨he, he'⟩ := ih hn
    exact ⟨congrArg (isNull · negated) he, he'⟩
  | case7 => exact absurd hn Bool.false_ne_true

theorem bare_entries {entries : List (Path × Node)}
    (h : ∀ entry ∈ entries, entry.2.change withoutCtes = entry.2 ∧ entry.2.harvest declaredCtes = []) :
    changeEntries withoutCtes entries = entries ∧ harvestEntries declaredCtes entries = [] := by
  induction entries with
  | nil => exact ⟨rfl, rfl⟩
  | cons entry rest ih =>
    rw [forall_mem_cons] at h
    obtain ⟨⟨hn, hn'⟩, hrest⟩ := h
    rw [changeEntries, harvestEntries, hn, hn', (ih hrest).1, (ih hrest).2]
    exact ⟨rfl, rfl⟩

/-- The value of a row has no select inside. -/
theorem IsValue.bare (hn : n.IsValue) : n.change withoutCtes = n ∧ n.harvest declaredCtes = [] := by
  induction hn with
  | scalar hn => exact bare_of_isScalar hn
  | source a => exact ⟨rfl, rfl⟩
  | composite hpaths hentries ih =>
    obtain ⟨hchange, hharvest⟩ := bare_entries ih
    exact ⟨congrArg Node.composite hchange, hharvest⟩

end Node

theorem bare_option {n : Option Node} (h : ∀ x ∈ n, x.change withoutCtes = x ∧ x.harvest declaredCtes = []) :
    changeOption withoutCtes n = n ∧ harvestOption declaredCtes n = [] := by
  cases n with
  | none => exact ⟨rfl, rfl⟩
  | some x => exact ⟨congrArg some (h x rfl).1, (h x rfl).2⟩

theorem bare_columns (h : ∀ c ∈ columns, c.expr.isScalar = true) :
    changeColumns withoutCtes columns = columns ∧ harvestColumns declaredCtes columns = [] := by
  induction columns with
  | nil => exact ⟨rfl, rfl⟩
  | cons c rest ih =>
    rw [forall_mem_cons] at h
    obtain ⟨hc, hc'⟩ := Node.bare_of_isScalar h.1
    cases c with
    | mk path name expr =>
      rw [changeColumns, harvestColumns, hc, hc', (ih h.2).1, (ih h.2).2]
      exact ⟨rfl, rfl⟩

end Sql

/-- The rows of each relation with the elements that they stand for. -/
abbrev Pairing : Type := Scalars → Contents → List (Row × Element)

/-- The rows of a pairing stand for their elements. -/
def Pairing.stands (pairs : Pairing) : Standing := fun m row e => ∃ contents, (row, e) ∈ pairs m contents

/-- The lists of elements that tables with given contents lead to. -/
abbrev Listing : Type := Scalars → Contents → List Element

/-- The rows of a closed select with the elements that they stand for. -/
def Pairing.ofListing (columns : List OutputColumn) (listing : Listing) : Pairing := fun m contents =>
    (listing m contents).map fun e => (Cell.row (e.cells columns), e)

/-- What a select of a chain is like: it has one data source, whose rows stand for elements, and no
clauses but a condition, a projection and those that page or drop duplicates. Its value stands for
the elements, and reading it gives the elements of a listing. -/
structure Reads (schema : Schema) (sc : Scope) (s : Select) (a : Alias) (r : Relation)
    (skip top : Option Nat) (pairs : Pairing) (σ : Shape) (listing : Listing) : Prop where
  sources : s.sources = [⟨a, r, none, none⟩]
  isPlain : s.isPlain = true
  skip_eq : s.skip = skip.map countNode
  top_eq : s.top = top.map countNode
  filter : ∀ n ∈ s.filter, n.isScalar = true
  bare : r.IsBare
  wf : σ.Wf
  value : Denotes schema sc a pairs.stands (s.currentShape sc) σ fun _ e => e
  rows : ∀ m contents, r.rows? m contents = some ((pairs m contents).map (·.1))
  decided : ∀ m contents, ∀ p ∈ pairs m contents, (keeps? m a p.1 s.filter).isSome
  listing : ∀ m contents, listing m contents =
    page skip top (deduplicated m s.distinct (keptElements m a s.filter (pairs m contents)))

namespace Reads

variable {pairs : Pairing} {listing : Listing}

theorem shape_eq (h : Reads schema sc s a r skip top pairs σ listing)
    {p : Row × Element} (hp : p ∈ pairs m contents) : p.2.shape = σ := h.value.shape_eq ⟨contents, hp⟩

theorem mem_of_mem_keptElements (he : e ∈ keptElements m a condition ps) : ∃ p ∈ ps, p.2 = e := by
  obtain ⟨p, hp, rfl⟩ := mem_map.1 he
  exact ⟨p, mem_of_mem_filter hp, rfl⟩

theorem mem_of_mem_deduplicated {distinct : Bool} (he : e ∈ deduplicated m distinct es) : e ∈ es := by
  unfold deduplicated at he
  split at he
  · exact mem_of_mem_eraseDupsBy he
  · exact he

theorem mem_of_mem_page {α : Type} {l : List α} {x : α} (h : x ∈ page skip top l) : x ∈ l := by
  unfold page at h
  split at h
  · exact mem_of_mem_drop h
  · exact mem_of_mem_drop (mem_of_mem_take h)

/-- The elements of a listing have the shape of the values of the select. -/
theorem shape_of_mem (h : Reads schema sc s a r skip top pairs σ listing) (he : e ∈ listing m contents) :
    e.shape = σ := by
  rw [h.listing] at he
  obtain ⟨p, hp, rfl⟩ := mem_of_mem_keptElements (mem_of_mem_deduplicated (mem_of_mem_page he))
  exact h.shape_eq hp

theorem map_deduplicated (distinct : Bool)
    (h : ∀ e ∈ es, columns.map (·.path) = e.shape.paths []) : (deduplicated m distinct es).map (·.cells columns) =
      if distinct then (es.map (·.cells columns)).eraseDupsBy (Cell.alike m) else es.map (·.cells columns) := by
  unfold deduplicated
  cases distinct with
  | false => rfl
  | true => exact map_eraseDupsBy fun e he f hf => Element.alike_cells m (h e he) (h f hf)

theorem groupBy_eq_none (h : s.isPlain = true) : s.groupBy = none := by
  unfold Select.isPlain at h
  simp only [Bool.and_eq_true, Option.isNone_iff_eq_none] at h
  exact h.1.1.1.1.1

theorem withKeyProjection_eq (h : s.isPlain = true) : s.withKeyProjection = s := by
  unfold Select.withKeyProjection
  split
  · next hnone =>
    have hgroup := groupBy_eq_none h
    have hprojection := Option.isNone_iff_eq_none.1 hnone
    cases s with
    | mk sources projection filter groupBy =>
      obtain rfl : projection = none := hprojection
      obtain rfl : groupBy = none := hgroup
      rfl
  · rfl

theorem mapM_outputRow? (h : ∀ p ∈ ps, outputRow? m a columns p.1 = some (p.2.cells columns)) :
    (ps.map (·.1)).mapM (outputRow? m a columns) = some ((ps.map (·.2)).map (·.cells columns)) := by
  induction ps with
  | nil => rfl
  | cons p rest ih =>
    rw [forall_mem_cons] at h
    rw [map_cons, mapM_cons, h.1, ih h.2]
    rfl

section

variable (h : Reads schema sc s a r skip top pairs σ listing) (hpaths : columns.map (·.path) = σ.paths [])
  (hvalues : ∀ m row e, pairs.stands m row e → columns.map (·.expr.value? m a row) = e.values.map some)

include h hpaths hvalues

/-- The output rows of a select for the rows of a pairing. -/
theorem output?_eq (m : Scalars) (contents : Contents) : s.output? m columns a ((pairs m contents).map (·.1)) =
      some ((listing m contents).map (·.cells columns)) := by
  have hkept := kept?_eq (h.decided m contents)
  have hrows : (((pairs m contents).filter fun p => keeps? m a p.1 s.filter == some true).map
      (·.1)).mapM (outputRow? m a columns) =
      some ((keptElements m a s.filter (pairs m contents)).map (·.cells columns)) := mapM_outputRow? fun p hp =>
      outputRow?_eq (hvalues m p.1 p.2 ⟨contents, mem_of_mem_filter hp⟩)
  have hshapes : ∀ e ∈ keptElements m a s.filter (pairs m contents), columns.map (·.path) = e.shape.paths [] := by
    intro e he
    obtain ⟨p, hp, rfl⟩ := mem_of_mem_keptElements he
    rw [h.shape_eq hp, hpaths]
  rw [Select.output?, hkept, h.skip_eq, h.top_eq, count?_countNode, count?_countNode, h.listing,
    map_page, map_deduplicated s.distinct hshapes]
  simp only [Option.bind_eq_bind, Option.bind_some, hrows]
  rfl

theorem read?_eq (m : Scalars) (contents : Contents) :
    s.read? m contents columns = some ((listing m contents).map (·.cells columns)) := by
  have hread : s.read? m contents columns = (sourceRows? m contents s.sources).bind fun source =>
      if s.isPlain then s.output? m columns source.1 source.2 else none := by
    cases s
    rfl
  have hsource : sourceRows? m contents [⟨a, r, none, none⟩] = (r.rows? m contents).map (a, ·) := rfl
  rw [hread, h.sources, hsource, h.rows, h.isPlain]
  exact h.output?_eq hpaths hvalues m contents

end

section

variable (h : Reads schema sc s a r skip top pairs σ listing)

include h

/-- A select of a chain declares no common table expressions. -/
theorem bare_select :
    s.change withoutCtes = s ∧ s.harvest declaredCtes = [] := by
  obtain ⟨hfilter, hfilter'⟩ := bare_option fun n hn => Node.bare_of_isScalar (h.filter n hn)
  have hprojection : ∀ n ∈ s.projection, n.IsValue := by
    intro n hn
    have hvalue := h.value.isValue
    rw [Select.currentShape, Option.mem_def.1 hn] at hvalue
    exact hvalue
  obtain ⟨hvalue, hvalue'⟩ := bare_option fun n hn => (hprojection n hn).bare
  have hcount : ∀ k : Option Nat, changeOption withoutCtes (k.map countNode) = k.map countNode ∧
      harvestOption declaredCtes (k.map countNode) = [] := fun k => by
    cases k <;> exact ⟨rfl, rfl⟩
  have hskip := h.skip_eq ▸ hcount skip
  have htop := h.top_eq ▸ hcount top
  have hsources : changeSources withoutCtes s.sources = s.sources ∧ harvestSources declaredCtes s.sources = [] := by
    rw [h.sources, changeSources, harvestSources, h.bare.1, h.bare.2]
    exact ⟨rfl, rfl⟩
  have hplain := h.isPlain
  cases s with
  | mk sources projection filter groupBy groupElement having orderBy limit offset distinct isDefault ctes =>
    simp only [Select.isPlain, Bool.and_eq_true, Option.isNone_iff_eq_none, List.isEmpty_iff] at hplain
    obtain ⟨⟨⟨⟨⟨rfl, rfl⟩, rfl⟩, rfl⟩, -⟩, rfl⟩ := hplain
    rw [Select.change, Select.harvest, hsources.1, hsources.2, hvalue, hvalue', hfilter, hfilter', hskip.1,
      hskip.2, htop.1, htop.2]
    exact ⟨rfl, rfl⟩

theorem bare_derived
    (hcolumns : ∀ c ∈ columns, c.expr.isScalar = true) (id : Alias) : (Relation.derived ⟨id, s, columns⟩).IsBare := by
  have hchange : (Relation.derived ⟨id, s, columns⟩).change withoutCtes =
      .derived ⟨id, s.change withoutCtes, changeColumns withoutCtes columns⟩ := rfl
  have hharvest : (Relation.derived ⟨id, s, columns⟩).harvest declaredCtes =
      s.harvest declaredCtes ++ harvestColumns declaredCtes columns := rfl
  rw [Relation.IsBare, hchange, hharvest, h.bare_select.1, h.bare_select.2, (bare_columns hcolumns).1,
    (bare_columns hcolumns).2]
  exact ⟨rfl, rfl⟩

/-- Closing a select fixes its output columns: one for each path of its shape, under names that differ.
Reading the closed select gives the elements of the listing. -/
theorem close
    (hd : s.close schema sc = .ok (d, sc')) : d.columns.map (·.path) = σ.paths [] ∧ (d.columns.map (·.name)).Nodup ∧
      (Relation.derived d).IsBare ∧ sc' = sc.fresh.2 ∧
      ∀ m contents, d.read? m contents = some ((listing m contents).map (·.cells d.columns)) := by
  simp only [Select.close, withKeyProjection_eq h.isPlain, Result.bind_eq_ok, Result.pure_eq_ok, Prod.mk.injEq] at hd
  obtain ⟨leaves, hleaves, rfl, rfl⟩ := hd
  have hcolumns := h.value.columns hleaves
  have hnamed : (nameColumns leaves).map (fun c => (c.path, c.expr)) = leaves := map_nameColumnsFrom [] leaves
  have hpaths : (nameColumns leaves).map (·.path) = σ.paths [] := by
    rw [← hcolumns.paths]
    conv_rhs => rw [← hnamed]
    rw [map_map]
    rfl
  have hscalar : ∀ c ∈ nameColumns leaves, c.expr.isScalar = true := fun c hc =>
    hcolumns.scalar _ (hnamed ▸ mem_map_of_mem hc : (c.path, c.expr) ∈ leaves)
  refine ⟨hpaths, (nodup_nameColumnsFrom [] leaves).1, h.bare_derived hscalar _, rfl, fun m contents => ?_⟩
  refine h.read?_eq hpaths (fun m row e he => ?_) m contents
  rw [← hcolumns.values m row e he]
  conv_rhs => rw [← hnamed]
  rw [map_map]
  rfl

end

/-- A select without clauses keeps all elements. -/
theorem keptElements_none (m : Scalars) (a : Alias) (ps : List (Row × Element)) :
    keptElements m a none ps = ps.map (·.2) := by
  have hall : (ps.filter fun p => keeps? m a p.1 none == some true) = ps := filter_eq_self.2 fun _ _ => rfl
  rw [keptElements, hall]

/-- A select that reads a relation whose rows stand for elements. -/
theorem ofRelation (hbare : r.IsBare) (hσ : σ.Wf)
    (hrows : ∀ m contents, r.rows? m contents = some ((pairs m contents).map (·.1)))
    (hlisting : ∀ m contents, listing m contents = (pairs m contents).map (·.2))
    (hvalue : Denotes schema (Select.ofRelation r sc).2 sc.lastAlias.next pairs.stands
      ((Select.ofRelation r sc).2.sourceValue sc.lastAlias.next) σ fun _ e => e) :
    Reads schema (Select.ofRelation r sc).2 (Select.ofRelation r sc).1 sc.lastAlias.next r none none pairs σ
      listing := by
  refine ⟨rfl, rfl, rfl, rfl, ?_, hbare, hσ, hvalue, hrows, fun m contents p hp => rfl, fun m contents => ?_⟩
  · rintro n ⟨⟩
  · rw [hlisting]
    exact (keptElements_none m _ _).symm

theorem needsWrap_ofRelation (r : Relation) (sc : Scope) (op : Operation) :
    (Select.ofRelation r sc).1.needsWrap op = false := by
  cases op <;> rfl

/-- The rows of a closed select stand for its elements. -/
theorem denotes_derived (hσ : σ.Wf) (hpaths : d.columns.map (·.path) = σ.paths [])
    (hnames : (d.columns.map (·.name)).Nodup) (hshape : ∀ m contents, ∀ e ∈ listing m contents, e.shape = σ)
    (ha : sc.shape? a = some (.ofRelation (.derived d))) :
    Denotes schema sc a (Pairing.ofListing d.columns listing).stands (sc.sourceValue a) σ fun _ e => e := by
  have hstands : ∀ m row e, (Pairing.ofListing d.columns listing).stands m row e →
      e.shape = σ ∧ row = Cell.row (e.cells d.columns) := by
    rintro m row e ⟨contents, hmem⟩
    obtain ⟨x, hx, heq⟩ := mem_map.1 hmem
    obtain ⟨rfl, rfl⟩ := Prod.mk.inj heq
    exact ⟨hshape m contents x hx, rfl⟩
  refine .ofColumns ha hσ ⟨?_, fun leaf hleaf => ?_, fun m row e he => ?_⟩ fun m row e he => (hstands m row e he).1
  · rw [Derived.columnPaths, map_map, map_map]
    exact hpaths
  · obtain ⟨c, -, rfl⟩ := mem_map.1 hleaf
    rfl
  · obtain ⟨hs, rfl⟩ := hstands m row e he
    rw [← Element.row_cells (hs ▸ hpaths) hnames, Derived.columnPaths, map_map, map_map]
    exact map_congr_left fun c _ => Node.value?_column m ..

/-- The select that reads a closed select has the same elements.

**Proof sketch.** Each row of the closed select has the single values of its element in columns of
names that differ, at the paths of the shape. -/
theorem wrap (h : Reads schema sc s a r skip top pairs σ listing) (hparams : sc.params = [])
    (hs : s.wrap schema sc = .ok (s', sc')) : sc'.params = [] ∧ (∀ op, s'.needsWrap op = false) ∧
      ∃ a' d pairs', Reads schema sc' s' a' (.derived d) none none pairs' σ listing := by
  simp only [Select.wrap, Select.enclose, Select.Wrapped.rebind, Result.bind_eq_ok, Result.pure_eq_ok] at hs
  obtain ⟨⟨w, sc₁⟩, ⟨⟨d, sc₂⟩, hd, hw⟩, sc₃, ⟨expansions, -, rfl⟩, hs⟩ := hs
  obtain ⟨hpaths, hnames, hbare, rfl, hread⟩ := h.close hd
  obtain ⟨rfl, rfl⟩ := Prod.mk.inj hw
  obtain ⟨rfl, rfl⟩ := Prod.mk.inj hs
  cases sc with
  | mk params shapes lastAlias =>
    obtain rfl : params = [] := hparams
    refine ⟨rfl, needsWrap_ofRelation _ _, lastAlias.next.next, d, .ofListing d.columns listing,
      @ofRelation _ ⟨[], shapes, lastAlias.next⟩ _ _ _ _ hbare h.wf (fun m contents => ?_) (fun m contents => ?_) ?_⟩
    · change (d.read? m contents).map _ = _
      rw [hread, Option.map_some, Pairing.ofListing, map_map, map_map]
      rfl
    · rw [Pairing.ofListing, map_map]
      exact (map_id _).symm
    · refine denotes_derived h.wf hpaths hnames (fun m contents e => h.shape_of_mem) ?_
      exact lookup_cons_self

end Reads

end QueryLowering
