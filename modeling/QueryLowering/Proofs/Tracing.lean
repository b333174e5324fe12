import QueryLowering.Proofs.Outlines
import QueryLowering.Proofs.RowEntities
import QueryLowering.Proofs.Within

/-!
# Modifications on the way to their table

An update or a deletion of rows that a closed select has becomes one of the select inside, and so on until the rows are
those of a table. Each round moves the condition and the values to the select inside, where the output expressions of
the closed select take the place of its columns. This file follows the rounds one by one: they come to an end, and no
column of a closed select that was left behind remains.

What a closed select reads was there before the data source that reads it. So its output expressions do not mention
this data source, and neither do those of the closed selects further inside.

## Main results

* `Modification.wellFounded_unwraps`: there are finitely many rounds.
* `Modification.trace_eq_ok_iff`: a modification is traced to a table by its rounds.
* `Modification.OnTrack.traces`: what holds of a modification in the end.
-/

namespace QueryLowering

open Sql Result List

variable {m m' m'' : Modification} {sc : Scope} {a b u : Alias} {d : Derived} {us vs : List Alias} {t : Table}
variable {entity : String} {r : Modification × Alias × String} {n : Node} {schema : Schema} {known : Registry}
variable {h : History} {x : DataSource}

/-! ## Rounds -/

/-- The rows of a select are neither paged nor grouped, and may occur twice. -/
structure Sql.Select.Modifiable (s : Select) : Prop where
  paged : s.isPaged = false
  grouped : s.isGrouped = false
  distinct : s.distinct = false

theorem Sql.Select.modifiable_iff {s : Select} : s.Modifiable ↔ (s.isPaged || s.isGrouped || s.distinct) = false := by
  rw [Bool.or_eq_false_iff, Bool.or_eq_false_iff, and_assoc]
  exact ⟨fun ⟨hpaged, hgrouped, hdistinct⟩ => ⟨hpaged, hgrouped, hdistinct⟩,
    fun ⟨hpaged, hgrouped, hdistinct⟩ => ⟨hpaged, hgrouped, hdistinct⟩⟩

namespace Modification

theorem unwrap_eq_ok : m.unwrap a d sc = .ok m' ↔ d.select.Modifiable ∧ m.missing a d = [] ∧ m' = m.inner a d sc := by
  unfold unwrap
  split
  · next hbad =>
    refine iff_of_false throw_ne_ok fun h => ?_
    rw [Select.modifiable_iff.1 h.1] at hbad
    cases hbad
  · next hgood =>
    have hselect := Select.modifiable_iff.2 (Bool.eq_false_iff.2 hgood)
    split
    · next column hmissing =>
      refine iff_of_false throw_ne_ok fun h => ?_
      rw [h.2.1] at hmissing
      cases hmissing
    · next hmissing =>
      rw [getLast?_eq_none_iff] at hmissing
      rw [pure_eq_ok]
      exact ⟨fun h => ⟨hselect, hmissing, h.symm⟩, fun h => h.2.2.symm⟩

/-- One round: the target of a modification names the only data source of its select, and this reads a closed
select. -/
inductive Unwraps (sc : Scope) (m : Modification) (a : Alias) (m' : Modification) : Prop
  | intro {x : DataSource} {d : Derived} (htarget : targetAlias m.statement m.target = .ok a)
      (hsources : m.select.sources = [x]) (hname : x.name = a) (hreads : x.relation = .derived d)
      (hunwrap : m.unwrap a d sc = .ok m')

/-- The rounds of a modification that is traced to a table, with the data sources that are left behind, the
modification in the end, and the table that its target names. -/
inductive Traces (sc : Scope) : Modification → List Alias → Modification → Alias → Table → Prop
  | table {m : Modification} {a : Alias} {x : DataSource} {t : Table}
      (htarget : targetAlias m.statement m.target = .ok a)
      (hfound : m.select.sources.find? (·.name == a) = some x) (hreads : x.relation = .table t) : Traces sc m [] m a t
  | unwrap {m m' m'' : Modification} {a b : Alias} {us : List Alias} {t : Table} (hround : m.Unwraps sc a m')
      (hrest : Traces sc m' us m'' b t) : Traces sc m (a :: us) m'' b t

/-- The select inside is a part of the select before, so that there are finitely many rounds. -/
theorem wellFounded_unwraps (sc : Scope) : WellFounded fun m' m => ∃ a, Unwraps sc m a m' := by
  refine Subrelation.wf ?_ (measure fun m : Modification => sizeOf m.select.sources).wf
  intro m' m hround
  obtain ⟨a, @⟨x, d, htarget, hsources, hname, hreads, hunwrap⟩⟩ := hround
  obtain ⟨-, -, hinner⟩ := unwrap_eq_ok.1 hunwrap
  change sizeOf _ < sizeOf _
  rw [hinner, sources_inner, hsources]
  obtain ⟨name, relation, join, navigation⟩ := x
  obtain ⟨id, select, columns⟩ := d
  obtain rfl : relation = .derived ⟨id, select, columns⟩ := hreads
  cases select
  simp only [List.cons.sizeOf_spec, DataSource.mk.sizeOf_spec, Relation.derived.sizeOf_spec, Derived.mk.sizeOf_spec,
    Select.mk.sizeOf_spec]
  omega

/-- A table among some data sources. -/
theorem ofTable_eq_ok_iff {sources : List DataSource} : m.ofTable sources a = .ok (m', b, entity) ↔
    ∃ x t, sources.find? (·.name == a) = some x ∧ x.relation = .table t ∧ m = m' ∧ a = b ∧ t.entity = entity := by
  unfold ofTable
  split
  · next t join navigation hx =>
    rw [pure_eq_ok, Prod.mk.injEq, Prod.mk.injEq]
    constructor
    · rintro ⟨rfl, rfl, rfl⟩
      exact ⟨_, t, hx, rfl, rfl, rfl, rfl⟩
    · rintro ⟨x, t', hx', ht', rfl, rfl, rfl⟩
      obtain rfl := Option.mem_unique hx hx'
      obtain rfl : t = t' := Relation.table.inj ht'
      exact ⟨rfl, rfl, rfl⟩
  · next x hno hx =>
    refine iff_of_false throw_ne_ok ?_
    rintro ⟨x', t, hx', ht, -⟩
    obtain rfl := Option.mem_unique hx hx'
    obtain ⟨name, relation, join, navigation⟩ := x
    obtain rfl : relation = .table t := ht
    exact hno name t join navigation rfl
  · next hx =>
    refine iff_of_false breach_ne_ok ?_
    rintro ⟨x, t, hx', -⟩
    rw [hx] at hx'
    cases hx'

/-- A modification whose select has one data source. -/
theorem trace_single (hsources : m.select.sources = [x]) : m.trace sc = .ok r ↔
    targetAlias m.statement m.target = .ok x.name ∧ traceRelation sc x.relation m x.name = .ok r := by
  rw [trace, hsources]
  obtain ⟨name, relation, join, navigation⟩ := x
  rw [traceFrom, bind_eq_ok]
  constructor
  · rintro ⟨a, ha, htrace⟩
    split at htrace
    · next hname =>
      subst hname
      exact ⟨ha, htrace⟩
    · exact absurd htrace breach_ne_ok
  · rintro ⟨ha, htrace⟩
    exact ⟨name, ha, (if_pos rfl).trans htrace⟩

/-- A modification whose select has no data source, or several. -/
theorem trace_of_length_ne_one (hsources : m.select.sources.length ≠ 1) : m.trace sc = .ok r ↔
    ∃ a, targetAlias m.statement m.target = .ok a ∧ m.ofTable m.select.sources a = .ok r := by
  rw [trace, ← bind_eq_ok]
  cases hrest : m.select.sources with
  | nil => rw [traceFrom]
  | cons x rest =>
    cases rest with
    | nil => simp [hrest] at hsources
    | cons y rest => rw [traceFrom]

theorem traceRelation_derived : traceRelation sc (.derived d) m a = .ok r ↔
    ∃ m', m.unwrap a d sc = .ok m' ∧ m'.trace sc = .ok r := by
  obtain ⟨id, select, columns⟩ := d
  rw [traceRelation, traceDerived, bind_eq_ok]
  refine exists_congr fun m' => and_congr_right fun hm' => ?_
  obtain ⟨-, -, hinner⟩ := unwrap_eq_ok.1 hm'
  rw [trace, hinner, sources_inner]
  cases select
  rw [traceSelect]

/-- A modification is traced to a table exactly by its rounds.

**Proof sketch.** By induction on the rounds that are left. If the target names the only data source of the select, what
this reads decides; among several data sources only a table is found. -/
theorem trace_eq_ok_iff : m.trace sc = .ok (m', b, entity) ↔ ∃ us t, Traces sc m us m' b t ∧ t.entity = entity := by
  induction m using (wellFounded_unwraps sc).induction with
  | _ m ih =>
    by_cases hlength : m.select.sources.length = 1
    · obtain ⟨x, hsources⟩ := length_eq_one_iff.1 hlength
      have hfound : m.select.sources.find? (·.name == x.name) = some x := by simp [hsources]
      rw [trace_single hsources]
      constructor
      · rintro ⟨htarget, htrace⟩
        cases hreads : x.relation with
        | table t =>
          rw [hreads, traceRelation, pure_eq_ok, Prod.mk.injEq, Prod.mk.injEq] at htrace
          obtain ⟨rfl, rfl, rfl⟩ := htrace
          exact ⟨[], t, .table htarget hfound hreads, rfl⟩
        | derived d =>
          rw [hreads, traceRelation_derived] at htrace
          obtain ⟨m₁, hunwrap, htrace⟩ := htrace
          have hround : m.Unwraps sc x.name m₁ := .intro htarget hsources rfl hreads hunwrap
          obtain ⟨us, t, htraces, hentity⟩ := (ih m₁ ⟨x.name, hround⟩).1 htrace
          exact ⟨x.name :: us, t, .unwrap hround htraces, hentity⟩
        | union items =>
          rw [hreads, traceRelation] at htrace
          exact absurd htrace throw_ne_ok
        | cte name columns =>
          rw [hreads, traceRelation] at htrace
          exact absurd htrace throw_ne_ok
      · rintro ⟨us, t, htraces, rfl⟩
        cases htraces with
        | table htarget hfound' hreads =>
          rw [hsources, find?_singleton, Option.ite_none_right_eq_some, beq_iff_eq] at hfound'
          obtain ⟨rfl, hx⟩ := hfound'
          obtain rfl := Option.some.inj hx
          rw [hreads, traceRelation]
          exact ⟨htarget, rfl⟩
        | unwrap hround hrest =>
          have htrace := (ih _ ⟨_, hround⟩).2 ⟨_, t, hrest, rfl⟩
          obtain @⟨y, d, htarget, hsources', rfl, hreads, hunwrap⟩ := hround
          obtain rfl : x = y := (List.cons.inj (hsources.symm.trans hsources')).1
          rw [hreads, traceRelation_derived]
          exact ⟨htarget, _, hunwrap, htrace⟩
    · rw [trace_of_length_ne_one hlength]
      constructor
      · rintro ⟨a, htarget, htable⟩
        obtain ⟨x, t, hfound, hreads, rfl, rfl, rfl⟩ := ofTable_eq_ok_iff.1 htable
        exact ⟨[], t, .table htarget hfound hreads, rfl⟩
      · rintro ⟨us, t, htraces, rfl⟩
        cases htraces with
        | table htarget hfound hreads =>
          exact ⟨b, htarget, ofTable_eq_ok_iff.2 ⟨_, t, hfound, hreads, rfl, rfl, rfl⟩⟩
        | unwrap hround hrest =>
          obtain @⟨y, d, -, hsources, -⟩ := hround
          exact absurd (by rw [hsources]; rfl) hlength

end Modification

/-! ## Columns that remain -/

namespace Sql

/-- No column of a data source stands in a tree. -/
def Node.Avoids (a : Alias) (n : Node) : Prop := n.All fun k => ∀ name, k ≠ .column a name

theorem thorough_marks : marks.Thorough where
  node {n xs} h := by
    cases n with
    | source _ | column _ _ => exact ⟨rfl, rfl⟩
    | _ => cases h
  relation _ _ := rfl

/-- A tree that mentions only aliases before that of a data source has no column of it. -/
theorem Node.Every.avoids (h : n.Every (Mark.Below a.index)) : n.Avoids a := by
  rintro k hk name rfl
  have hmention : Mark.mention a ∈ n.harvest marks :=
    hk.harvest_subset thorough_marks (mem_singleton_self (Mark.mention a))
  exact Nat.lt_irrefl _ (h _ hmention)

theorem thorough_missingColumns (a : Alias) (d : Derived) : (missingColumns a d).Thorough where
  node {n xs} h := by
    cases n with
    | column _ _ => exact ⟨rfl, rfl⟩
    | _ => cases h
  relation _ _ := rfl

/-- If no column is missing, every column of the closed select that is read has an output expression. -/
theorem Node.isSome_output?_of_missing (h : n.harvest (missingColumns a d) = []) {name : String}
    (hcolumn : (Node.column a name).Within n) : (d.output? name).isSome := by
  have hnone : (Node.column a name).harvest (missingColumns a d) = [] := eq_nil_iff_forall_not_mem.2 fun x hx =>
      not_mem_nil (h ▸ hcolumn.harvest_subset (thorough_missingColumns a d) hx)
  rw [Option.isSome_iff_ne_none]
  intro houtput
  simp [Node.harvest, missingColumns, houtput] at hnone

theorem faithful_inlining (a : Alias) (d : Derived) : (inlining a d).Faithful :=
  ⟨fun _ => rfl, fun _ => rfl, fun _ => rfl, fun _ => List.Subset.refl _⟩

/-- A change makes no column out of something else. -/
theorem Node.change_ne_column {c : Change} (hn : c.node n = none) (h : ∀ name, n ≠ .column u name) (name : String) :
    n.change c ≠ .column u name := by
  cases n with
  | column b name' =>
    simp only [change, hn]
    exact h name
  | _ => simp only [change, hn, ne_eq, reduceCtorEq, not_false_eq_true]

/-- After output expressions have taken the place of the columns of a closed select, no column of a data source is left
that they do not have: if it is another data source none was there, and if it is that of the closed select none is
missing. -/
theorem Node.avoids_inline (houtputs : ∀ c ∈ d.columns, c.expr.Avoids u)
    (hother : u ≠ a → n.Avoids u) (hsame : u = a → n.harvest (missingColumns a d) = []) : (n.inline a d).Avoids u := by
  have hcovered : n.All fun k => ∀ name, k = .column u name → u = a ∧ (d.output? name).isSome := by
    rintro k hk name rfl
    by_cases hu : u = a
    · subst hu
      exact ⟨rfl, isSome_output?_of_missing (hsame rfl) hk⟩
    · exact absurd rfl (hother hu _ hk name)
  refine hcovered.change_to (faithful_inlining a d) ?_ ?_ ?_
  · rintro k ⟨r, r', q, hr, -⟩
    cases hr
  · intro k k' hk hkeeps
    cases k with
    | column b name =>
      have hleaf : (∀ name', Node.column b name ≠ .column u name') → (Node.column b name).Avoids u := fun hne =>
        all_iff.2 ⟨hne, by simp [children, blocksOf?, operands]⟩
      simp only [inlining, beq_iff_eq] at hk
      split at hk
      · next hb =>
        subst hb
        obtain rfl := Option.some.inj hk
        cases houtput : d.output? name with
        | some e =>
          obtain ⟨c, hc, rfl⟩ := Derived.exists_of_output? houtput
          exact houtputs c hc
        | none =>
          refine hleaf fun name' heq => ?_
          have hsome := (hkeeps name' heq).2
          obtain ⟨-, rfl⟩ := column.inj heq
          rw [houtput] at hsome
          cases hsome
      · next hb =>
        obtain rfl := Option.some.inj hk
        refine hleaf fun name' heq => hb ?_
        exact (column.inj heq).1.trans (hkeeps name' heq).1
    | _ => cases hk
  · intro k hk hkeeps name
    refine change_ne_column hk (fun name' heq => ?_) name
    subst heq
    simp only [inlining] at hk
    split at hk <;> cases hk

end Sql

/-! ## What holds on the way -/

namespace Modification

/-- The condition of the select inside, which is not grouped. -/
theorem filter_inner (hgrouped : d.select.isGrouped = false) : (m.inner a d sc).select.filter =
    match m.select.filter with
    | some f => Select.conjoined d.select.filter (f.inline a d)
    | none => d.select.filter := by
  cases hfilter : m.select.filter with
  | some f => simp [inner, hfilter, Select.addFilter, hgrouped]
  | none => simp [inner, hfilter]

/-- The select inside stays as it is but for its condition. -/
theorem modifiable_inner (hd : d.select.Modifiable) : (m.inner a d sc).select.Modifiable := by
  simp only [inner]
  split
  · rw [Select.addFilter, hd.grouped]
    exact ⟨hd.paged, hd.grouped, hd.distinct⟩
  · exact ⟨hd.paged, hd.grouped, hd.distinct⟩

theorem avoids_conjoined {existing : Option Node} {predicate : Node} (hexisting : ∀ e ∈ existing, e.Avoids a)
    (hpredicate : predicate.Avoids a) : ∀ n ∈ Select.conjoined existing predicate, n.Avoids a := by
  intro n hn
  unfold Select.conjoined at hn
  split at hn
  · next e =>
    obtain rfl := Option.mem_some_iff.1 hn
    refine (Node.all_of_operands rfl).2 ⟨by simp, ?_⟩
    exact forall_mem_cons.2 ⟨hexisting e rfl, forall_mem_singleton.2 hpredicate⟩
  · obtain rfl := Option.mem_some_iff.1 hn
    exact hpredicate

/-- What holds of a modification after rounds that have left some data sources behind: its condition and its values have
no columns of these, and neither has anything that its select reads. -/
structure OnTrack (schema : Schema) (known : Registry) (h : History) (us : List Alias) (m : Modification) : Prop where
  every : m.Every h.Accepts
  fits : m.Holds (Node.Every (AllFit schema known))
  modifiable : m.select.Modifiable
  filter : ∀ u ∈ us, ∀ n ∈ m.select.filter, n.Avoids u
  values : ∀ u ∈ us, ∀ v ∈ m.values, v.2.Avoids u
  reads : ∀ u ∈ us, ∀ x ∈ m.select.sources, x.relation.Every (Mark.Below u.index)
  registered : ∀ u ∈ us, ∃ columns entity, known.lookup u = some (.columns columns entity)

/-- A closed select mentions neither the data source that reads it nor one that was left behind. -/
theorem OnTrack.below (hm : OnTrack schema known h us m) (hx : x ∈ m.select.sources)
    (hreads : x.relation = .derived d) : ∀ u ∈ x.name :: us, d.Every (Mark.Below u.index) := by
  refine forall_mem_cons.2 ⟨fun mark hmark => ?_, fun u hu => ?_⟩
  · cases mark with
    | mention b =>
      refine History.Grown.relations hm.every.select.own x hx b ?_
      rw [hreads]
      exact hmark
    | sources _ => trivial
  · have hrelation := hm.reads u hu x hx
    rwa [hreads] at hrelation

/-- One round. -/
theorem OnTrack.unwraps (hm : OnTrack schema known h us m) (hround : m.Unwraps sc a m') :
    OnTrack schema known h (a :: us) m' := by
  obtain @⟨x, d, -, hsources, rfl, hreads, hunwrap⟩ := hround
  obtain ⟨hmodifiable, hmissing, rfl⟩ := unwrap_eq_ok.1 hunwrap
  have hx : x ∈ m.select.sources := hsources ▸ mem_singleton_self x
  have hbelow := fun u hu => Derived.every_iff.1 (hm.below hx hreads u hu)
  have hd : d.Every h.Accepts := by
    have hrelation := (hm.every.select.sources x hx).relation
    rwa [hreads] at hrelation
  have hregistered : ∃ columns entity, known.lookup x.name = some (.columns columns entity) := by
    have hx := Fitting.registered (Node.every_select.1 hm.fits.select).own hx
    simpa [Outline.Registered, DataSource.outline, hreads, Relation.table?] using hx
  -- The columns of the closed select give way to its output expressions, which have no columns left behind.
  have hinline : ∀ n : Node, n.harvest (missingColumns x.name d) = [] → (∀ u ∈ us, n.Avoids u) →
      ∀ u ∈ x.name :: us, (n.inline x.name d).Avoids u := by
    intro n hnone hn u hu
    refine Node.avoids_inline (fun c hc => ((hbelow u hu).2 c hc).avoids) (fun hne => ?_) fun _ => hnone
    exact hn u ((mem_cons.1 hu).resolve_left hne)
  simp only [missing, flatMap_eq_nil_iff, mem_append, Option.mem_toList, mem_map] at hmissing
  refine ⟨hm.every.inner hd (hm.below hx hreads x.name mem_cons_self),
    hm.fits.inner traceable_outlines (traceable_outlines.reads hm.fits.select hx hreads),
    modifiable_inner hmodifiable, fun u hu => ?_, fun u hu v hv => ?_, fun u hu y hy => ?_,
    forall_mem_cons.2 ⟨hregistered, hm.registered⟩⟩
  · have hfilter : ∀ n ∈ d.select.filter, n.Avoids u := fun n hn => ((hbelow u hu).1.filter n hn).avoids
    rw [filter_inner hmodifiable.grouped]
    split
    · next f hf =>
      exact avoids_conjoined hfilter (hinline f (hmissing f (.inl (.inl hf))) (fun u hu => hm.filter u hu f hf) u hu)
    · exact hfilter
  · obtain ⟨w, hw, rfl⟩ := mem_map.1 hv
    exact hinline w.2 (hmissing w.2 (.inr ⟨w, hw, rfl⟩)) (fun u hu => hm.values u hu w hw) u hu
  · rw [sources_inner] at hy
    exact ((hbelow u hu).1.sources y hy).relation

/-- All rounds, by induction. -/
theorem OnTrack.traces (hm : OnTrack schema known h vs m) (htraces : Traces sc m us m' b t) :
    OnTrack schema known h (us.reverse ++ vs) m' := by
  induction htraces generalizing vs with
  | table => exact hm
  | unwrap hround _ ih =>
    rw [reverse_cons, append_assoc, singleton_append]
    exact ih (hm.unwraps hround)

/-! ## The end -/

/-- A table is none of the data sources that were left behind, because those have columns of their own. -/
theorem OnTrack.not_mem (hm : OnTrack schema known h us m) (hx : x ∈ m.select.sources)
    (hreads : x.relation = .table t) : x.name ∉ us := by
  intro hmem
  obtain ⟨columns, entity, hcolumns⟩ := hm.registered x.name hmem
  rw [Fitting.registered_table (Node.every_select.1 hm.fits.select).own hx hreads] at hcolumns
  cases hcolumns

/-- The target in the end is the table of a data source. -/
theorem Traces.found (htraces : Traces sc m us m' b t) : targetAlias m'.statement m'.target = .ok b ∧
    ∃ x ∈ m'.select.sources, x.name = b ∧ x.relation = .table t := by
  induction htraces with
  | table htarget hfound hreads =>
    have hname := find?_some hfound
    exact ⟨htarget, _, mem_of_find?_eq_some hfound, beq_iff_eq.1 hname, hreads⟩
  | unwrap _ _ ih => exact ih

theorem eq_of_commonSource {leaves : List (Option Alias)} (h : commonSource leaves = some a) :
    ∀ leaf ∈ leaves, leaf = some a := by
  unfold commonSource at h
  split at h
  · next b rest =>
    split at h
    · next hall =>
      obtain rfl := Option.some.inj h
      exact forall_mem_cons.2 ⟨rfl, fun leaf hleaf => beq_iff_eq.1 (all_eq_true.1 hall leaf hleaf)⟩
    · cases h
  · cases h

/-- A target has columns of the data source that it names only. -/
theorem avoids_of_targetAlias {statement : String} (hn : targetAlias statement n = .ok a) (hab : a ≠ b) :
    n.Avoids b := by
  have hsource : ∀ c, (Node.source c).Avoids b := fun c => Node.all_iff.2 ⟨nofun, nofun⟩
  have hcolumn : ∀ name, (Node.column a name).Avoids b := fun name =>
    Node.all_iff.2 ⟨fun name' heq => hab (Node.column.inj heq).1, nofun⟩
  unfold targetAlias at hn
  split at hn
  · exact hsource _
  · obtain rfl := Except.ok.inj hn
    exact hcolumn _
  · next entries =>
    rw [orThrow_eq_ok] at hn
    refine (Node.all_of_operands rfl).2 ⟨nofun, forall_mem_map.2 fun entry hentry => ?_⟩
    have hleaf := eq_of_commonSource hn (leafSource entry.2) (mem_map_of_mem hentry)
    cases hnode : entry.2 with
    | source c => exact hsource c
    | column c name =>
      rw [hnode] at hleaf
      obtain rfl := Option.some.inj hleaf
      exact hcolumn name
    | _ =>
      rw [hnode] at hleaf
      cases hleaf
  · exact absurd hn throw_ne_ok

theorem avoids_asScalar (hn : n.Avoids a) : n.asScalar.Avoids a := by
  cases n with
  | derived d => exact Node.all_iff.2 ⟨nofun, (Node.all_iff.1 hn).2⟩
  | _ => exact hn

/-- An update assigns values to columns of the entity only. -/
theorem mem_assignments {values : List (Path × Node)} {result : List (String × Node)}
    (hresult : assignments schema entity values = .ok result) : ∀ x ∈ result, (∃ v ∈ values, x.2 = v.2.asScalar) ∧
      ∃ columns, schema.columns entity = .ok columns ∧ ∃ c ∈ columns, c.column = x.1 := by
  fun_induction assignments schema entity values generalizing result with
  | case1 =>
    obtain rfl := Except.ok.inj hresult
    exact forall_mem_nil _
  | case2 n rest member ih =>
    simp only [bind_eq_ok, pure_eq_ok] at hresult
    obtain ⟨column, hcolumn, others, hothers, rfl⟩ := hresult
    obtain ⟨columns, hcolumns, c, hc, rfl⟩ := Schema.columnName_eq_ok.1 hcolumn
    refine forall_mem_cons.2 ⟨⟨⟨_, mem_cons_self, rfl⟩, columns, hcolumns, c, mem_of_find?_eq_some hc,
      rfl⟩, fun x hx => ?_⟩
    obtain ⟨⟨v, hv, hx⟩, hassigned⟩ := ih hothers x hx
    exact ⟨⟨v, mem_cons_of_mem _ hv, hx⟩, hassigned⟩
  | case3 => exact absurd hresult throw_ne_ok

end Modification

end QueryLowering
