import Mathlib.Logic.Function.Basic
import QueryLowering.Proofs.Marks

/-!
# The history of aliases

Every data source of a select is added under an alias that was never used before, behind the data
sources that are there. So an alias knows its past: which data sources stood before the one that it
names. Copies of a select share a past as far as they share data sources, and what a join could
mention when its condition was made has smaller aliases than what was added later.

## Main results

* `History.Grown.append`, `History.Grown.set`, `History.Grown.change`: the ways in which lists of data
  sources come to be.
-/

namespace QueryLowering

open Sql List

variable {past : List Alias} {i : Nat} {d : Derived} {c : Change} {a id : Alias}

/-- The condition of the join of a data source mentions an alias. -/
def Sql.DataSource.Mentions (d : DataSource) (a : Alias) : Prop := Mark.mention a ∈ harvestJoin marks d.join

/-- What has happened to aliases. -/
structure History where
  /-- The number of the alias handed out last. -/
  last : Nat
  /-- The data sources that stood before that of an alias when it was added, by its number. -/
  before : Nat → List Alias

namespace History

/-- One history goes on from another. -/
structure Extends (h k : History) : Prop where
  last : h.last ≤ k.last
  before : ∀ i ≤ h.last, k.before i = h.before i

theorem Extends.refl (h : History) : h.Extends h := ⟨Nat.le_refl _, fun _ _ => rfl⟩

theorem Extends.trans {h k l : History} (hk : h.Extends k) (kl : k.Extends l) : h.Extends l where
  last := Nat.le_trans hk.last kl.last
  before i hi := (kl.before i (Nat.le_trans hi hk.last)).trans (hk.before i hi)

/-- The history in which one more alias was handed out, with a past. -/
def advance (h : History) (past : List Alias) : History := ⟨h.last + 1, Function.update h.before (h.last + 1) past⟩

variable {h k : History} {l : List DataSource}

@[simp]
theorem advance_last : (h.advance past).last = h.last + 1 := rfl

@[simp]
theorem advance_before_succ : (h.advance past).before (h.last + 1) = past := Function.update_self ..

theorem advance_before_of_le (hi : i ≤ h.last) : (h.advance past).before i = h.before i :=
  Function.update_of_ne (Nat.ne_of_lt (Nat.lt_succ_of_le hi)) ..

theorem extends_advance (h : History) (past : List Alias) : h.Extends (h.advance past) :=
  ⟨Nat.le_succ _, fun _ => advance_before_of_le⟩

/-- A list of data sources that was added to one by one. -/
structure Grown (h : History) (l : List DataSource) : Prop where
  /-- All aliases have been handed out. -/
  known : ∀ d ∈ l, d.name.index ≤ h.last
  /-- The past of each alias is what stands before it. -/
  placed : ∀ (i : Nat) (d : DataSource), l[i]? = some d → h.before d.name.index = (l.take i).map (·.name)
  /-- What a data source reads was there before it. -/
  relations : ∀ d ∈ l, ∀ a, Mark.mention a ∈ d.relation.harvest marks → a.index < d.name.index
  /-- The condition of a join mentions an alias as late as that of a data source behind it only if
  the join is none of a navigation and all data sources up to there are navigations. -/
  conditions : ∀ (i j : Nat) (d d' : DataSource), i < j → l[i]? = some d → l[j]? = some d' →
    ∀ a, d.Mentions a → d'.name.index ≤ a.index →
      d.navigation = none ∧ ∀ (m : Nat) (x : DataSource), i < m → m ≤ j → l[m]? = some x → x.navigation.isSome

/-- The condition on marks that a history sets: mentioned aliases have been handed out, and lists of
data sources were added to one by one. -/
def Accepts (h : History) : Mark → Prop
  | .mention a => a.index ≤ h.last
  | .sources l => h.Grown l

theorem Grown.mono (hl : h.Grown l) (hk : h.Extends k) : k.Grown l where
  known d hd := Nat.le_trans (hl.known d hd) hk.last
  placed i d hd := by
    rw [hk.before _ (hl.known d (mem_of_getElem? hd))]
    exact hl.placed i d hd
  relations := hl.relations
  conditions := hl.conditions

theorem Extends.accepts (hk : h.Extends k) (m : Mark) (hm : h.Accepts m) : k.Accepts m := by
  cases m with
  | mention a => exact Nat.le_trans hm hk.last
  | sources l => exact Grown.mono hm hk

theorem grown_nil : h.Grown [] := ⟨by simp, by simp, by simp, by simp⟩

/-- Different places hold different aliases, because their pasts have different lengths. -/
theorem Grown.index_eq (hl : h.Grown l) {j : Nat} {d d' : DataSource} (hi : l[i]? = some d)
    (hj : l[j]? = some d') (hname : d.name = d'.name) : i = j := by
  have hpast : (l.take i).map (·.name) = (l.take j).map (·.name) := by
    rw [← hl.placed i d hi, ← hl.placed j d' hj, hname]
  have hlength := congrArg List.length hpast
  obtain ⟨hi, -⟩ := List.getElem?_eq_some_iff.1 hi
  obtain ⟨hj, -⟩ := List.getElem?_eq_some_iff.1 hj
  simp only [List.length_map, List.length_take] at hlength
  omega

/-- A data source with the next alias can be added to a list. -/
theorem Grown.append (hl : h.Grown l) (hevery : ∀ d ∈ l, d.Every h.Accepts) {d : DataSource}
    (hd : d.name.index = h.last + 1) (hr : d.relation.Every h.Accepts) :
    (h.advance (l.map (·.name))).Grown (l ++ [d]) where
  known x hx := by
    rcases mem_append.1 hx with hx | hx
    · exact Nat.le_succ_of_le (hl.known x hx)
    · obtain rfl := mem_singleton.1 hx
      exact Nat.le_of_eq hd
  placed i x hx := by
    by_cases hi : i < l.length
    · rw [List.getElem?_append_left hi] at hx
      rw [advance_before_of_le (hl.known x (mem_of_getElem? hx)), hl.placed i x hx,
        take_append_of_le_length (Nat.le_of_lt hi)]
    · rw [getElem?_append_right (by omega), getElem?_singleton] at hx
      split at hx
      · obtain rfl := Option.some.inj hx
        have hlength : i = l.length := by omega
        rw [hd, advance_before_succ, hlength, take_left]
      · cases hx
  relations x hx a ha := by
    rcases mem_append.1 hx with hx | hx
    · exact hl.relations x hx a ha
    · rw [mem_singleton.1 hx] at ha ⊢
      have : a.index ≤ h.last := hr _ ha
      omega
  conditions i j x y hij hx hy a ha hya := by
    have hi : i < l.length := by
      obtain ⟨hj, -⟩ := List.getElem?_eq_some_iff.1 hy
      rw [List.length_append, List.length_singleton] at hj
      omega
    rw [List.getElem?_append_left hi] at hx
    have hearly : a.index ≤ h.last := by
      have hx := hevery x (mem_of_getElem? hx)
      exact forall_mem_harvestJoin.2 hx.condition _ ha
    by_cases hj : j < l.length
    · rw [List.getElem?_append_left hj] at hy
      obtain ⟨hplain, hnav⟩ := hl.conditions i j x y hij hx hy a ha hya
      refine ⟨hplain, fun m z him hmj hz => hnav m z him hmj ?_⟩
      rwa [List.getElem?_append_left (by omega)] at hz
    · rw [getElem?_append_right (by omega), getElem?_singleton] at hy
      split at hy
      · obtain rfl := Option.some.inj hy
        omega
      · cases hy

/-- A list with the names and navigations of a grown list is grown if what its data sources read was there before, and
if a condition that mentions a late alias stands where one may. -/
theorem Grown.of_places (hl : h.Grown l) {l' : List DataSource} (hnames : l'.map (·.name) = l.map (·.name))
    (same : ∀ (i : Nat) (y : DataSource), l'[i]? = some y → ∃ x, l[i]? = some x ∧ x.name = y.name ∧
      x.navigation = y.navigation ∧ (∀ a, Mark.mention a ∈ y.relation.harvest marks → a.index < x.name.index) ∧
      ∀ (j : Nat) (z : DataSource), i < j → l[j]? = some z → ∀ a, y.Mentions a → z.name.index ≤ a.index →
        x.navigation = none ∧ ∀ (m : Nat) (w : DataSource), i < m → m ≤ j → l[m]? = some w → w.navigation.isSome) :
    h.Grown l' := by
  refine ⟨fun y hy => ?_, fun i y hy => ?_, fun y hy a ha => ?_, fun i j y z hij hy hz a ha hza => ?_⟩
  · obtain ⟨i, hi⟩ := getElem?_of_mem hy
    obtain ⟨x, hx, hname, -⟩ := same i y hi
    exact hname ▸ hl.known x (mem_of_getElem? hx)
  · obtain ⟨x, hx, hname, -⟩ := same i y hy
    rw [← hname, hl.placed i x hx, map_take, map_take, hnames]
  · obtain ⟨i, hi⟩ := getElem?_of_mem hy
    obtain ⟨x, -, hname, -, hrelation, -⟩ := same i y hi
    exact hname ▸ hrelation a ha
  · obtain ⟨x, -, -, hnav, -, hcondition⟩ := same i y hy
    obtain ⟨z', hz', hname, -⟩ := same j z hz
    obtain ⟨hplain, hnavs⟩ := hcondition j z' hij hz' a ha (hname ▸ hza)
    refine ⟨hnav ▸ hplain, fun m w him hmj hw => ?_⟩
    obtain ⟨w', hw', -, hnavw, -⟩ := same m w hw
    exact hnavw ▸ hnavs m w' him hmj hw'

/-- The join of a data source can be given a condition as long as only navigations follow it. A
navigation gets its condition at once, when nothing follows. -/
theorem Grown.set (hl : h.Grown l) {d : DataSource} (hd : l[i]? = some d) {join : Option Join}
    (hplain : d.navigation = none ∨ i + 1 = l.length)
    (hnav : ∀ (m : Nat) (x : DataSource), i < m → l[m]? = some x → x.navigation.isSome) :
    h.Grown (l.set i { d with join }) := by
  have hnames : (l.set i { d with join }).map (·.name) = l.map (·.name) := by
    obtain ⟨hi, rfl⟩ := List.getElem?_eq_some_iff.1 hd
    rw [List.map_set]
    refine List.ext_getElem? fun j => ?_
    rw [List.getElem?_set]
    split
    · next hij =>
      subst hij
      simp [hi]
    · rfl
  refine hl.of_places hnames fun j y hy => ?_
  rw [List.getElem?_set] at hy
  split at hy
  · next hij =>
    subst hij
    split at hy
    · obtain rfl := Option.some.inj hy
      refine ⟨d, hd, rfl, rfl, hl.relations d (mem_of_getElem? hd), fun m z him hz _ _ _ => ?_⟩
      refine ⟨hplain.resolve_right fun hlast => ?_, fun m' w him' _ hw => hnav m' w him' hw⟩
      obtain ⟨hm, -⟩ := List.getElem?_eq_some_iff.1 hz
      omega
    · cases hy
  · exact ⟨y, hy, rfl, rfl, hl.relations y (mem_of_getElem? hy), fun m z hjm hz => hl.conditions j m y z hjm hy hz⟩

/-! ## Changes -/

end History

/-- All mentioned aliases are below a number. -/
def Sql.Mark.Below (b : Nat) : Mark → Prop
  | .mention a => a.index < b
  | .sources _ => True

/-- A change that mentions no later alias than what it replaces. -/
def Sql.Change.Lowers (c : Change) : Prop := ∀ b, c.Keeps (Mark.Below b)

namespace History

variable {h : History} {l : List DataSource}

theorem getElem?_changeSources (c : Change) (i : Nat) : (changeSources c l)[i]? = l[i]?.map fun d =>
    { d with relation := d.relation.change c, join := changeJoin c d.join } := by
  induction l generalizing i with
  | nil => simp [changeSources]
  | cons d rest ih =>
    cases d
    cases i <;> simp [changeSources, ih]

theorem map_name_changeSources (c : Change) : (changeSources c l).map (·.name) = l.map (·.name) := by
  refine List.ext_getElem? fun i => ?_
  rw [getElem?_map, getElem?_map, getElem?_changeSources, Option.map_map]
  rfl

/-- A change that mentions no later aliases leaves a grown list grown. -/
theorem Grown.change (hl : h.Grown l) (hc : c.Lowers) : h.Grown (changeSources c l) := by
  refine hl.of_places (map_name_changeSources c) fun i y hy => ?_
  rw [getElem?_changeSources] at hy
  obtain ⟨x, hx, rfl⟩ := Option.map_eq_some_iff.1 hy
  refine ⟨x, hx, rfl, rfl, fun a ha => ?_, fun j z hij hz a ha hza => ?_⟩
  · refine x.relation.every_change (hc x.name.index) (fun m hm => ?_) _ ha
    cases m with
    | mention b => exact hl.relations x (mem_of_getElem? hx) b hm
    | sources _ => trivial
  · -- If all mentions stood below the later data source, so would those after the change.
    have late : ∃ b, x.Mentions b ∧ z.name.index ≤ b.index := by
      by_contra hnone
      simp only [not_exists, not_and, Nat.not_le] at hnone
      have hbelow : ∀ m ∈ harvestJoin marks (changeJoin c x.join), Mark.Below z.name.index m := by
        refine forall_mem_harvestJoin.2 (every_changeJoin (hc _) _ (forall_mem_harvestJoin.1 ?_))
        intro m hm
        cases m with
        | mention b => exact hnone b hm
        | sources _ => trivial
      have hlt : a.index < z.name.index := hbelow _ ha
      omega
    obtain ⟨b, hb, hzb⟩ := late
    exact hl.conditions i j x z hij hx hz b hb hzb

end History

section

variable {A : Mark → Prop}

/-- A condition on marks that the change of data sources does not break. -/
def Sql.Change.KeepsSources (c : Change) (A : Mark → Prop) : Prop :=
  ∀ l, A (.sources l) → A (.sources (changeSources c l))

theorem keeps_substitution {r : Relation} (hA : (substitution id r).KeepsSources A)
    (hr : r.Every A) : (substitution id r).Keeps A where
  relation q q' hq _ := by
    simp only [substitution] at hq
    split at hq
    · obtain rfl := Option.some.inj hq
      exact hr
    · cases hq
  node := nofun
  select _ hs := hs
  sources l hl _ := hA l hl

theorem Sql.Derived.exists_of_output? {name : String} {n : Node} (hn : d.output? name = some n) :
    ∃ c ∈ d.columns, c.expr = n := by
  obtain ⟨c, hc, hexpr⟩ := Option.map_eq_some_iff.1 hn
  exact ⟨c, mem_reverse.1 (mem_of_find?_eq_some hc), hexpr⟩

theorem keeps_inlining (hA : (inlining a d).KeepsSources A)
    (hd : A (.mention a) → ∀ name, ∀ n ∈ d.output? name, n.Every A) : (inlining a d).Keeps A where
  relation := nofun
  node n n' hn h := by
    simp only [inlining] at hn
    split at hn
    · next b name =>
      split at hn
      · next hba =>
        obtain rfl := Option.some.inj hn
        obtain rfl : b = a := beq_iff_eq.1 hba
        cases houtput : d.output? name with
        | none => exact h
        | some m => exact hd (Node.every_column.1 h) name m houtput
      · obtain rfl := Option.some.inj hn
        exact h
    · cases hn
  select _ hs := hs
  sources l hl _ := hA l hl

theorem keeps_withoutCtes (hA : withoutCtes.KeepsSources A) : withoutCtes.Keeps A where
  relation := nofun
  node := nofun
  select _ hs := { hs with ctes := forall_mem_nil _ }
  sources l hl _ := hA l hl

end

namespace History

variable {h : History}

theorem keepsSources_of_lowers (hc : c.Lowers) : c.KeepsSources h.Accepts := fun _ hl => Grown.change hl hc

/-- Putting a reference to a common table expression in the place of a relation. -/
theorem keeps_reference {columns : List (Path × String)} :
    (substitution id (.cte a columns)).Keeps h.Accepts := keeps_substitution
    (keepsSources_of_lowers fun _ => keeps_substitution (fun _ _ => trivial) Relation.every_cte) Relation.every_cte

theorem keeps_bare : withoutCtes.Keeps h.Accepts :=
  keeps_withoutCtes (keepsSources_of_lowers fun _ => keeps_withoutCtes fun _ _ => trivial)

/-- Putting the outputs of a closed select, which was there before the data source that reads it, in
the place of the columns of that data source. -/
theorem keeps_outputs (hd : d.Every h.Accepts)
    (hearly : d.Every (Mark.Below a.index)) : (inlining a d).Keeps h.Accepts := by
  have outputs : ∀ {A : Mark → Prop}, d.Every A → ∀ name, ∀ n ∈ d.output? name, n.Every A := by
    intro A hA name n hn
    obtain ⟨c, hc, rfl⟩ := Derived.exists_of_output? hn
    exact (Derived.every_iff.1 hA).2 c hc
  refine keeps_inlining (keepsSources_of_lowers fun b => ?_) fun _ => outputs hd
  refine keeps_inlining (fun _ _ => trivial) fun hab name n hn => ?_
  refine (outputs hearly name n hn).mono fun m hm => ?_
  cases m with
  | mention x => exact Nat.lt_trans hm hab
  | sources _ => trivial

end History

end QueryLowering
