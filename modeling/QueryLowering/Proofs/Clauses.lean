import QueryLowering.Proofs.Closing

/-!
# The clauses of a select

What a change of one clause does to the elements of a select. A condition may join the clauses that are
there unless these page, drop duplicates or compute; a projection unless duplicates are dropped; a
limit unless there is one; an offset or the dropping of duplicates unless rows are paged. In all these
cases the elements of the changed select are what the operator makes of the elements before, and in all
other cases the select is wrapped first, which keeps its elements.

## Main results

* `Denotes.reindex`: a node as a function of other elements.
* `Reads.addFilter`, `Reads.project`, `Reads.setTop`, `Reads.setSkip`, `Reads.setDistinct`: the
  elements after a change of a clause.
* `Reads.prepare`: the select that is made ready for a change has the same elements.
-/

namespace QueryLowering

open Sql

variable {m : Scalars} {a : Alias} {row : Row} {schema : Schema} {sc sc' : Scope} {s s' : Select} {r : Relation}
variable {skip top : Option Nat} {pairs : Pairing} {σ τ : Shape} {listing : Listing} {n : Node} {f : View}

/-! ## Values of other rows -/

/-- A node stands for a function of other elements too if their rows stood for elements on which the
functions agree. -/
theorem Denotes.reindex {S S' : Standing}
    {f' : View} (h : Denotes schema sc a S n σ f) (hS : ∀ m row e', S' m row e' → ∃ e, S m row e ∧ f' m e' = f m e) :
    Denotes schema sc a S' n σ f' := by
  induction h generalizing f' with
  | scalar hn hvalue =>
    refine .scalar hn fun m row e' he' => ?_
    obtain ⟨e, he, hf⟩ := hS m row e' he'
    rw [hf]
    exact hvalue m row e he
  | record hn hmulti hshape hleaves hknown _ ih =>
    refine .record hn hmulti (fun m row e' he' => ?_) (fun base leaves hflat => ?_) hknown
      fun name n' τ hn' hτ => ih name n' τ hn' hτ fun m row e' he' => ?_
    · obtain ⟨e, he, hf⟩ := hS m row e' he'
      rw [hf]
      exact hshape m row e he
    · obtain ⟨hpaths, hscalar, hvalues⟩ := hleaves base leaves hflat
      refine ⟨hpaths, hscalar, fun m row e' he' => ?_⟩
      obtain ⟨e, he, hf⟩ := hS m row e' he'
      rw [hf]
      exact hvalues m row e he
    · obtain ⟨e, he, hf⟩ := hS m row e' he'
      exact ⟨e, he, congrArg (·.member name) hf⟩

/-- The bodies of lambdas keep shapes well formed. -/
theorem Expr.Admits.wf {x : String} {body : Expr} (h : body.Admits x σ τ) (hσ : σ.Wf) : τ.Wf := by
  induction h with
  | parameter ty => exact hσ
  | member ty _ _ hname ih =>
    cases ih with
    | record hdistinct hmembers => exact hmembers _ (mem_of_lookup hname)
  | @construct members shapes ty hnames hdistinct hmembers ih =>
    rw [hnames, List.Nodup, List.pairwise_map] at hdistinct
    refine .record (hdistinct.imp fun hne heq => absurd heq hne) fun p hp => ?_
    have hlength : shapes.length ≤ members.length := Nat.le_of_eq (by simpa using (congrArg List.length hnames).symm)
    rw [← List.map_snd_zip hlength] at hp
    obtain ⟨pair, hpair, rfl⟩ := List.mem_map.1 hp
    exact ih pair hpair
  | _ => exact .scalar

/-! ## Conditions -/

theorem Sql.Scalars.holds_both (v w : Literal) : m.holds (m.both v w) = (m.holds v && m.holds w) := by
  rw [Scalars.holds, Scalars.both, Scalars.truth_ofTruth, Scalars.holds, Scalars.holds]
  rcases m.truth v with _ | _ | _ <;> rcases m.truth w with _ | _ | _ <;> rfl

/-- A further condition keeps those of the rows on which it is true. -/
theorem keeps?_conjoined {existing : Option Node} {predicate : Node} {kept : Bool} {v : Literal}
    (hkept : keeps? m a row existing = some kept) (hv : predicate.value? m a row = some v) :
    keeps? m a row (Select.conjoined existing predicate) = some (kept && m.holds v) := by
  cases existing with
  | none =>
    obtain rfl := Option.some.inj hkept
    rw [Select.conjoined, keeps?, hv]
    rfl
  | some e =>
    obtain ⟨w, hw, rfl⟩ := Option.map_eq_some_iff.1 hkept
    rw [Select.conjoined, keeps?, Node.value?_binary hw hv, ← Scalars.holds_both]
    rfl

namespace Reads

variable (h : Reads schema sc s a r skip top pairs σ listing)

include h

theorem isGrouped_eq : s.isGrouped = false := by
  rw [Select.isGrouped, groupBy_eq_none h.isPlain]
  rfl

theorem top_eq_none (htop : s.top.isSome = false) :
    top = none := by
  rw [h.top_eq, Option.isSome_map] at htop
  exact Option.isSome_eq_false_iff.1 htop |> Option.isNone_iff_eq_none.1

/-- A select that is not paged lists all elements that its other clauses leave. -/
theorem unpaged (hpaged : s.isPaged = false) :
    skip = none ∧ top = none := by
  obtain ⟨htop, hskip⟩ := Bool.or_eq_false_iff.1 hpaged
  rw [h.skip_eq, Option.isSome_map] at hskip
  exact ⟨Option.isNone_iff_eq_none.1 (Option.isSome_eq_false_iff.1 hskip), h.top_eq_none htop⟩

/-- A condition keeps the elements on which it is true. -/
theorem addFilter (hwrap : s.needsWrap .filter = false) (hn : Denotes schema sc a pairs.stands n .scalar f) :
    Reads schema sc (s.addFilter n.asScalar.condition) a r skip top pairs σ fun m contents =>
      (listing m contents).filter fun e => m.holds (f m e).value := by
  simp only [Select.needsWrap, Bool.or_eq_false_iff] at hwrap
  obtain ⟨⟨⟨hpaged, hdistinct⟩, -⟩, -⟩ := hwrap
  obtain ⟨rfl, rfl⟩ := h.unpaged hpaged
  have hadd : s.addFilter n.asScalar.condition = { s with filter := Select.conjoined s.filter n.condition } := by
    rw [Select.addFilter, h.isGrouped_eq, Node.asScalar_of_isScalar hn.isScalar]
    rfl
  have hkeeps : ∀ m contents, ∀ p ∈ pairs m contents, ∃ kept, keeps? m a p.1 s.filter = some kept ∧
      keeps? m a p.1 (Select.conjoined s.filter n.condition) = some (kept && m.holds (f m p.2).value) := by
    intro m contents p hp
    obtain ⟨kept, hkept⟩ := Option.isSome_iff_exists.1 (h.decided m contents p hp)
    cases hn with
    | scalar hn hvalue =>
      obtain ⟨v, hf, hv⟩ := hvalue m p.1 p.2 ⟨contents, hp⟩
      refine ⟨kept, hkept, ?_⟩
      rw [keeps?_conjoined hkept (Node.value?_condition hv), hf, Scalars.holds, Scalars.truth_ofTruth]
      rfl
  rw [hadd]
  refine ⟨h.sources, h.isPlain, h.skip_eq, h.top_eq, ?_, h.bare, h.wf, h.value, h.rows,
    fun m contents p hp => ?_, fun m contents => ?_⟩
  · intro condition hcondition
    have hscalar := Node.isScalar_condition hn.isScalar
    cases hfilter : s.filter with
    | none =>
      rw [hfilter] at hcondition
      obtain rfl := Option.some.inj hcondition
      exact hscalar
    | some e =>
      rw [hfilter] at hcondition
      obtain rfl := Option.some.inj hcondition
      exact Bool.and_eq_true_iff.2 ⟨h.filter e hfilter, hscalar⟩
  · obtain ⟨kept, -, hboth⟩ := hkeeps m contents p hp
    exact Option.isSome_iff_exists.2 ⟨_, hboth⟩
  · have hlisting : listing m contents = keptElements m a s.filter (pairs m contents) := by
      rw [h.listing, hdistinct]
      rfl
    rw [hlisting, hdistinct]
    change _ = keptElements m a (Select.conjoined s.filter n.condition) (pairs m contents)
    rw [keptElements, keptElements, List.filter_map, List.filter_filter]
    refine congrArg (List.map _) (List.filter_congr fun p hp => ?_)
    obtain ⟨kept, hkept, hboth⟩ := hkeeps m contents p hp
    rw [hkept, hboth]
    cases kept <;> cases hholds : m.holds (f m p.2).value <;> simp [hholds]

/-- A projection changes each element. -/
theorem project (hwrap : s.needsWrap .projection = false) (hτ : τ.Wf) (hn : Denotes schema sc a pairs.stands n τ f) :
    Reads schema sc (s.project n) a r skip top (fun m contents => (pairs m contents).map fun p => (p.1, f m p.2))
      τ fun m contents => (listing m contents).map (f m) := by
  have hdistinct : s.distinct = false := hwrap
  have hproject : s.project n = { s with projection := some n } := by
    rw [Select.project, h.isGrouped_eq, Bool.and_false, hn.isValue.asScalar_eq]
    rfl
  rw [hproject]
  refine ⟨h.sources, h.isPlain, h.skip_eq, h.top_eq, h.filter, h.bare, hτ, ?_, fun m contents => ?_,
    fun m contents p hp => ?_, fun m contents => ?_⟩
  · refine hn.reindex fun m row e' he' => ?_
    obtain ⟨contents, hmem⟩ := he'
    obtain ⟨p, hp, heq⟩ := List.mem_map.1 hmem
    obtain ⟨rfl, rfl⟩ := Prod.mk.inj heq
    exact ⟨p.2, ⟨contents, hp⟩, rfl⟩
  · rw [h.rows, List.map_map]
    rfl
  · obtain ⟨q, hq, rfl⟩ := List.mem_map.1 hp
    exact h.decided m contents q hq
  · rw [h.listing, hdistinct]
    change (page skip top (keptElements ..)).map _ = page skip top (keptElements ..)
    rw [map_page, keptElements, keptElements, List.filter_map, List.map_map, List.map_map]
    rfl

/-- A limit takes elements from the front. -/
theorem setTop (hwrap : s.needsWrap .take = false) (k : Nat) :
    Reads schema sc { s with top := some (countNode k) } a r skip (some k) pairs σ fun m contents =>
      (listing m contents).take k := by
  obtain rfl := h.top_eq_none hwrap
  refine ⟨h.sources, h.isPlain, h.skip_eq, rfl, h.filter, h.bare, h.wf, h.value, h.rows, h.decided,
    fun m contents => ?_⟩
  rw [h.listing]
  rfl

/-- An offset leaves elements out at the front. -/
theorem setSkip (hwrap : s.needsWrap .skip = false) (k : Nat) :
    Reads schema sc { s with skip := some (countNode k) } a r (some k) none pairs σ fun m contents =>
      (listing m contents).drop k := by
  obtain ⟨rfl, rfl⟩ := h.unpaged hwrap
  refine ⟨h.sources, h.isPlain, rfl, h.top_eq, h.filter, h.bare, h.wf, h.value, h.rows, h.decided, fun m contents => ?_⟩
  rw [h.listing]
  rfl

/-- Without duplicates the first elements of each kind are left. -/
theorem setDistinct (hwrap : s.needsWrap .distinct = false) :
    Reads schema sc { s with distinct := true } a r none none pairs σ fun m contents =>
      (listing m contents).eraseDupsBy (Element.alike m) := by
  obtain ⟨rfl, rfl⟩ := h.unpaged hwrap
  refine ⟨h.sources, h.isPlain, h.skip_eq, h.top_eq, h.filter, h.bare, h.wf, h.value, h.rows, h.decided,
    fun m contents => ?_⟩
  rw [h.listing]
  change (deduplicated m s.distinct (keptElements ..)).eraseDupsBy _ = (keptElements ..).eraseDupsBy _
  cases s.distinct with
  | false => rfl
  | true => exact eraseDupsBy_eraseDupsBy ..

/-- The select in which a change can be made has the same elements. -/
theorem prepare (hparams : sc.params = [])
    {op : Operation} (hs : s.prepare schema op sc = .ok (s', sc')) : sc'.params = [] ∧ s'.needsWrap op = false ∧
      ∃ a r skip top pairs, Reads schema sc' s' a r skip top pairs σ listing := by
  simp only [Select.prepare, Result.bind_eq_ok] at hs
  obtain ⟨-, -, hs⟩ := hs
  split at hs
  · obtain ⟨hparams', hneeds, a', d, pairs', h'⟩ := h.wrap hparams hs
    exact ⟨hparams', hneeds op, a', _, none, none, pairs', h'⟩
  · next hneeds =>
    obtain ⟨rfl, rfl⟩ := Prod.mk.inj (Except.ok.inj hs)
    exact ⟨hparams, Bool.eq_false_iff.2 hneeds, a, r, skip, top, pairs, h⟩

end Reads

end QueryLowering
