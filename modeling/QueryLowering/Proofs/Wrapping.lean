import Mathlib.Data.List.Pairwise
import QueryLowering.Proofs.Closing
import QueryLowering.Proofs.Rebinding

/-!
# Members of wrapped selects

When a select is closed and read by a new one, the members of its rows are columns of the new data
source. This file compares the two ways to a member: member by member below the old value, and by the
path of an output column of the closed select.

## Main results

* `Scope.resolveMembers_iff_leads`, `Scope.resolveMembers_source`: resolution as a search among columns.
* `Scope.leads_flatten`: what a path leads to stands at that path among the output columns.
* `wrap_resolves_members`: wrapping a select keeps what paths lead to.
-/

namespace QueryLowering

open Sql Result List Scope QueryLowering.Path

variable {base path q p : Path} {schema : Schema} {sc inner after : Scope} {L leaves xs ys : List (Path × Node)}
variable {n e v b : Node} {a : Alias} {m : String} {s : Select} {replacements : List (Node × Node)}
variable {expansions : List (Alias × Node)} {columns : List (Path × String)} {rowEntity : Option String}

/-- What one step brings about and every step keeps holds at the end. -/
theorem Result.foldlM_of_mem {α β : Type} {f : β → α → Result β} {xs : List α} {b c : β} {P : β → Prop}
    (hc : xs.foldlM f b = .ok c) {x : α} (hx : x ∈ xs) (start : ∀ b c, f b x = .ok c → P c)
    (step : ∀ y ∈ xs, ∀ b c, P b → f b y = .ok c → P c) : P c := by
  obtain ⟨before, after, rfl⟩ := append_of_mem hx
  simp only [foldlM_append, foldlM_cons, bind_eq_ok] at hc
  obtain ⟨b', -, b'', hb'', hc⟩ := hc
  exact foldlM_induction hc (start b' b'' hb'') fun y hy => step y (by simp [hy])

/-! ## Paths -/

namespace Path

section

variable {α β : Type} {entries : List (Path × α)} {x : α}

theorem after?_eq_some : p.after? base = some q ↔ p = base ++ q ∧ q ≠ [] := by
  fun_induction after? p base with
  | case1 p h => simp_all
  | case2 p h =>
    simp only [Option.some.injEq, nil_append]
    constructor
    · rintro rfl
      exact ⟨rfl, fun hq => h (isEmpty_iff.2 hq)⟩
    · exact fun h => h.1
  | case3 s p t base hst ih =>
    obtain rfl := eq_of_beq hst
    simp [ih]
  | case4 s p t base hst => simp_all
  | case5 => simp

/-- The entries below a path, each at the rest of its path. -/
def below (entries : List (Path × α)) (base : Path) : List (Path × α) :=
  entries.filterMap fun (p, x) => (p.after? base).map (·, x)

theorem mem_below : (q, x) ∈ below entries base ↔ (base ++ q, x) ∈ entries ∧ q ≠ [] := by
  simp only [below, mem_filterMap, Option.map_eq_some_iff, after?_eq_some, Prod.mk.injEq, Prod.exists]
  constructor
  · rintro ⟨_, _, hmem, _, ⟨rfl, hq⟩, rfl, rfl⟩
    exact ⟨hmem, hq⟩
  · rintro ⟨hmem, hq⟩
    exact ⟨_, _, hmem, _, ⟨rfl, hq⟩, rfl, rfl⟩

theorem lookup_below (hq : q ≠ []) : (below entries base).lookup q = entries.lookup (base ++ q) := by
  induction entries with
  | nil => rfl
  | cons entry rest ih =>
    obtain ⟨p, x⟩ := entry
    rw [lookup_cons]
    cases hafter : p.after? base with
    | none =>
      have hne : base ++ q ≠ p := fun hp => absurd (after?_eq_some.2 ⟨hp.symm, hq⟩) (by simp [hafter])
      have hbelow : below ((p, x) :: rest) base = below rest base := filterMap_cons_none (by simp [hafter])
      rw [hbelow, ih, beq_eq_false_iff_ne.2 hne]
    | some q' =>
      obtain ⟨rfl, -⟩ := after?_eq_some.1 hafter
      have hbelow : below ((base ++ q', x) :: rest) base = (q', x) :: below rest base :=
        filterMap_cons_some (by simp [hafter])
      have hbeq : (base ++ q == base ++ q') = (q == q') := by
        rw [Bool.eq_iff_iff, beq_iff_eq, beq_iff_eq, append_cancel_left_eq]
      rw [hbelow, lookup_cons, ih, hbeq]

theorem find?_map_snd (entries : List (Path × α)) (path : Path) :
    (entries.find? (·.1 == path)).map (·.2) = entries.lookup path := by
  induction entries with
  | nil => rfl
  | cons entry rest ih =>
    rw [find?_cons, lookup_cons, Bool.beq_comm]
    cases path == entry.1 with
    | true => rfl
    | false => exact ih

/-- A path leads to what the first entry at it holds. No other entry stands in its way: the entries at
parts of the path have no path at all. -/
structure Leads (entries : List (Path × α)) (path : Path) (x : α) : Prop where
  ne_nil : path ≠ []
  alone : ∀ entry ∈ entries, entry.1 ≠ [] → entry.1 <+: path → entry.1 = path
  found : entries.lookup path = some x

theorem Leads.below (h : Leads entries (base ++ q) x) (hq : q ≠ []) : Leads (below entries base) q x where
  ne_nil := hq
  alone := by
    rintro ⟨p, y⟩ hmem hp hbegin
    have hmem := (mem_below.1 hmem).1
    have hlong := h.alone _ hmem (append_ne_nil_of_right_ne_nil _ hp) (prefix_append_right_inj _ |>.2 hbegin)
    exact append_cancel_left hlong
  found := by rw [lookup_below hq, h.found]

theorem Leads.of_below (h : Leads (Path.below entries [m]) q x) (hm : entries.lookup [m] = none) :
    Leads entries (m :: q) x where
  ne_nil := cons_ne_nil m q
  alone := by
    rintro ⟨p, y⟩ hmem hp hbegin
    obtain ⟨k, rest, rfl⟩ := exists_cons_of_ne_nil hp
    obtain ⟨rfl, hrest⟩ := cons_prefix_cons.1 hbegin
    by_cases hnil : rest = []
    · subst hnil
      obtain ⟨y, hy⟩ := exists_lookup hmem
      cases hm.symm.trans hy
    · exact congrArg _ (h.alone _ (mem_below.2 ⟨hmem, hnil⟩) hnil hrest)
  found := by
    rw [← h.found, lookup_below h.ne_nil]
    rfl

theorem lookup_map_snd (f : α → β) (entries : List (Path × α)) (path : Path) :
    (entries.map fun entry => (entry.1, f entry.2)).lookup path = (entries.lookup path).map f := by
  induction entries with
  | nil => rfl
  | cons entry rest ih =>
    rw [map_cons, lookup_cons, lookup_cons]
    cases path == entry.1 with
    | true => rfl
    | false => exact ih

theorem lookup_map_append (entries : List (Path × α)) (base q : Path) :
    (entries.map fun entry => (base ++ entry.1, entry.2)).lookup (base ++ q) = entries.lookup q := by
  induction entries with
  | nil => rfl
  | cons entry rest ih =>
    have hbeq : (base ++ q == base ++ entry.1) = (q == entry.1) := by
      rw [Bool.eq_iff_iff, beq_iff_eq, beq_iff_eq, append_cancel_left_eq]
    rw [map_cons, lookup_cons, lookup_cons, hbeq, ih]

theorem leads_map {f : α → β} {y : β} :
    Leads (entries.map fun entry => (entry.1, f entry.2)) path y ↔ ∃ x, Leads entries path x ∧ f x = y := by
  constructor
  · intro h
    have hfound := h.found
    rw [lookup_map_snd, Option.map_eq_some_iff] at hfound
    obtain ⟨x, hx, rfl⟩ := hfound
    exact ⟨x, ⟨h.ne_nil, fun entry hentry => h.alone _ (mem_map_of_mem hentry), hx⟩, rfl⟩
  · rintro ⟨x, h, rfl⟩
    refine ⟨h.ne_nil, fun entry hentry => ?_, by rw [lookup_map_snd, h.found, Option.map_some]⟩
    obtain ⟨entry, hmem, rfl⟩ := mem_map.1 hentry
    exact h.alone entry hmem

/-- No path among entries begins another one. -/
def PrefixFree (entries : List (Path × α)) : Prop := entries.Pairwise fun a b => ¬a.1 <+: b.1 ∧ ¬b.1 <+: a.1

theorem prefixFree_iff : PrefixFree entries ↔ (entries.map (·.1)).Pairwise fun p q => ¬p <+: q ∧ ¬q <+: p := by
  rw [pairwise_map]
  rfl

theorem PrefixFree.eq_of_begins (h : PrefixFree entries) {a b : Path × α} (ha : a ∈ entries) (hb : b ∈ entries)
    (hbegin : a.1 <+: b.1) : a = b := by
  by_contra hne
  have : Std.Symm fun a b : Path × α => ¬a.1 <+: b.1 ∧ ¬b.1 <+: a.1 := ⟨fun _ _ h => h.symm⟩
  exact (h.forall ha hb hne).1 hbegin

theorem PrefixFree.lookup_eq (h : PrefixFree entries) (hmem : (path, x) ∈ entries) : entries.lookup path = some x := by
  obtain ⟨y, hy⟩ := exists_lookup hmem
  have heq := h.eq_of_begins hmem (mem_of_lookup hy) (prefix_refl path)
  rw [(Prod.mk.inj heq).2, hy]

theorem PrefixFree.below (h : PrefixFree entries) (base : Path) : PrefixFree (below entries base) := by
  refine List.Pairwise.filterMap _ (fun a b hab c hc d hd => ?_) h
  obtain ⟨q, hq, rfl⟩ := Option.map_eq_some_iff.1 hc
  obtain ⟨r, hr, rfl⟩ := Option.map_eq_some_iff.1 hd
  rw [(after?_eq_some.1 hq).1, (after?_eq_some.1 hr).1, prefix_append_right_inj,
    prefix_append_right_inj] at hab
  exact hab

end

end Path

/-! ## Resolution, member by member -/

namespace Sql.Node

/-- A single value: one that a select puts out as it is. -/
def isSingle : Node → Bool
  | .composite _ | .source _ | .grouping .. | .derived _ | .select _ | .placeholder | .table _ | .union _
  | .update _ | .delete _ => false
  | _ => true

theorem memberOf?_eq_some {entries : List (Path × Node)} :
    memberOf? entries m = some n ↔ entries.lookup [m] = some n ∨
      entries.lookup [m] = none ∧ Path.below entries [m] ≠ [] ∧ n = .composite (Path.below entries [m]) := by
  rw [← find?_map_snd]
  unfold memberOf? Path.below
  cases entries.find? (·.1 == [m]) with
  | some entry => simp
  | none =>
    generalize List.filterMap _ entries = nested
    cases nested with
    | nil => simp
    | cons entry rest => simp [eq_comm]

end Sql.Node

namespace Scope

variable {entries : List (Path × Node)}

/-- What a path leads to below a value, member by member. -/
def resolveMembers (schema : Schema) (sc : Scope) (n : Node) (path : Path) : Result Node :=
  path.foldlM (sc.resolveMember schema) n

@[simp]
theorem resolveMembers_nil : sc.resolveMembers schema n [] = .ok n := rfl

theorem resolveMembers_cons : sc.resolveMembers schema n (m :: path) = .ok e ↔
      ∃ k, sc.resolveMember schema n m = .ok k ∧ sc.resolveMembers schema k path = .ok e := by
  rw [resolveMembers, foldlM_cons, bind_eq_ok]
  rfl

theorem resolveMember_composite :
    sc.resolveMember schema (.composite entries) m = .ok n ↔ Node.memberOf? entries m = some n := orThrow_eq_ok

/-- A single value has no members. -/
theorem eq_nil_of_isSingle (hn : n.isSingle = true) (h : sc.resolveMembers schema n path = .ok e) : path = [] := by
  cases path with
  | nil => rfl
  | cons m rest =>
    obtain ⟨k, hk, -⟩ := resolveMembers_cons.1 h
    cases n <;> first | cases hn; done | exact absurd hk throw_ne_ok

/-- Among single values, a path leads to what stands at it unless a part of the path holds a value. -/
theorem resolveMembers_iff_leads (hL : ∀ entry ∈ L, entry.2.isSingle = true) :
    sc.resolveMembers schema (.composite L) path = .ok e ∧ e.isSingle = true ↔ Path.Leads L path e := by
  induction path generalizing L with
  | nil =>
    constructor
    · rintro ⟨h, he⟩
      cases h
      cases he
    · exact fun h => absurd rfl h.ne_nil
  | cons m rest ih =>
    simp only [resolveMembers_cons, resolveMember_composite, Node.memberOf?_eq_some]
    cases hm : L.lookup [m] with
    | some n =>
      have hmem : ([m], n) ∈ L := mem_of_lookup hm
      constructor
      · rintro ⟨⟨k, hk | ⟨hk, -⟩, hrest⟩, he⟩
        · obtain rfl := Option.some.inj hk
          obtain rfl := eq_nil_of_isSingle (hL _ hmem) hrest
          cases hrest
          refine ⟨by simp, fun entry hentry hne hbegin => ?_, hm⟩
          exact hbegin.eq_of_length_le (length_pos_of_ne_nil hne)
        · cases hk
      · intro h
        have hpath := h.alone _ hmem (by simp) ⟨rest, rfl⟩
        obtain rfl := (List.cons.inj hpath).2
        have hfound := h.found
        rw [hm] at hfound
        obtain rfl := Option.some.inj hfound
        exact ⟨⟨n, .inl rfl, rfl⟩, hL _ hmem⟩
    | none =>
      have hbelow : ∀ entry ∈ Path.below L [m], entry.2.isSingle = true :=
        fun entry hentry => hL ([m] ++ entry.1, entry.2) (mem_below.1 hentry).1
      constructor
      · rintro ⟨⟨k, hk | ⟨-, -, rfl⟩, hrest⟩, he⟩
        · cases hk
        · exact ((ih hbelow).1 ⟨hrest, he⟩).of_below hm
      · intro h
        have hrest : rest ≠ [] := by
          rintro rfl
          have hfound := h.found
          rw [hm] at hfound
          cases hfound
        have h : Path.Leads L ([m] ++ rest) e := h
        have h := h.below hrest
        obtain ⟨hresolve, he⟩ := (ih hbelow).2 h
        refine ⟨⟨_, .inr ⟨rfl, ?_, rfl⟩, hresolve⟩, he⟩
        intro hnil
        have hfound := h.found
        rw [hnil] at hfound
        cases hfound

/-! ## Rows -/

theorem exists_column_of_sourceLeaves (hL : sc.sourceLeaves schema a = .ok L) :
    ∀ entry ∈ L, ∃ name, entry.2 = .column a name := by
  simp only [sourceLeaves, bind_eq_ok] at hL
  obtain ⟨shape, -, hL⟩ := hL
  intro entry hentry
  split at hL
  · simp only [bind_eq_ok, pure_eq_ok] at hL
    obtain ⟨columns, -, rfl⟩ := hL
    obtain ⟨c, -, rfl⟩ := mem_map.1 hentry
    exact ⟨_, rfl⟩
  · obtain rfl := pure_eq_ok.1 hL
    obtain ⟨c, -, rfl⟩ := mem_map.1 hentry
    exact ⟨_, rfl⟩

theorem isSingle_sourceLeaves (hL : sc.sourceLeaves schema a = .ok L) : ∀ entry ∈ L, entry.2.isSingle = true := by
  intro entry hentry
  obtain ⟨name, hname⟩ := exists_column_of_sourceLeaves hL entry hentry
  rw [hname]
  rfl

theorem memberOf?_row (cs : List Column) (a : Alias) (m : String) :
    Node.memberOf? (cs.map fun c => ([c.member], .column a c.column)) m =
      (cs.find? (·.member == m)).map fun c => .column a c.column := by
  have hbelow : Path.below (cs.map fun c => ([c.member], Node.column a c.column)) [m] = [] := by
    rw [eq_nil_iff_forall_not_mem]
    rintro ⟨q, x⟩ hmem
    obtain ⟨hmem, hq⟩ := mem_below.1 hmem
    obtain ⟨c, -, hc⟩ := mem_map.1 hmem
    exact hq (List.cons.inj (Prod.mk.inj hc).1).2.symm
  have hlookup : (cs.map fun c => ([c.member], Node.column a c.column)).lookup [m] =
      (cs.find? (·.member == m)).map fun c => .column a c.column := by
    rw [← find?_map_snd, find?_map, Option.map_map]
    have hkey : (fun entry : Path × Node => entry.1 == [m]) ∘ (fun c : Column => ([c.member], .column a c.column)) =
        fun c => c.member == m := by
      funext c
      simp
    rw [hkey]
    rfl
  refine Option.ext fun n => ?_
  rw [Node.memberOf?_eq_some, hbelow, hlookup]
  simp

/-- A member of a row is a member of the value of its columns. -/
theorem resolveMember_source : sc.resolveMember schema (.source a) m = .ok n ↔
      ∃ L, sc.sourceLeaves schema a = .ok L ∧ Node.memberOf? L m = some n := by
  simp only [resolveMember, resolvePath, sourceLeaves, bind_eq_ok]
  cases sc.shape a with
  | error e => simp
  | ok shape =>
    cases shape with
    | entity name => simp [Schema.columnName, memberOf?_row, -bind_pure_comp]
    | columns columns rowEntity => simp [Node.resolveColumns_eq]

/-- A path below a row leads to a single value if it does so among its columns. -/
theorem resolveMembers_source : sc.resolveMembers schema (.source a) path = .ok e ∧ e.isSingle = true ↔
      ∃ L, sc.sourceLeaves schema a = .ok L ∧ Path.Leads L path e := by
  cases path with
  | nil =>
    constructor
    · rintro ⟨h, he⟩
      cases h
      cases he
    · rintro ⟨_, -, h⟩
      exact absurd rfl h.ne_nil
  | cons m rest =>
    simp only [resolveMembers_cons, resolveMember_source]
    constructor
    · rintro ⟨⟨k, ⟨L, hL, hk⟩, hrest⟩, he⟩
      have h := resolveMembers_cons.2 ⟨k, resolveMember_composite.2 hk, hrest⟩
      exact ⟨L, hL, (resolveMembers_iff_leads (isSingle_sourceLeaves hL)).1 ⟨h, he⟩⟩
    · rintro ⟨L, hL, h⟩
      obtain ⟨h, he⟩ := (resolveMembers_iff_leads (isSingle_sourceLeaves hL)).2 h
      obtain ⟨k, hk, hrest⟩ := resolveMembers_cons.1 h
      exact ⟨⟨k, ⟨L, hL, resolveMember_composite.1 hk⟩, hrest⟩, he⟩

/-! ## Values of several columns -/

/-- A path that leads to a single value goes through one of the entries. -/
theorem exists_entry_of_resolveMembers (h : sc.resolveMembers schema (.composite entries) path = .ok e)
    (he : e.isSingle = true) :
    ∃ p v q, (p, v) ∈ entries ∧ p ≠ [] ∧ path = p ++ q ∧ sc.resolveMembers schema v q = .ok e := by
  induction path generalizing entries with
  | nil =>
    cases h
    cases he
  | cons m rest ih =>
    obtain ⟨k, hk, hrest⟩ := resolveMembers_cons.1 h
    rw [resolveMember_composite, Node.memberOf?_eq_some] at hk
    obtain hm | ⟨-, -, rfl⟩ := hk
    · exact ⟨[m], k, rest, mem_of_lookup hm, by simp, rfl, hrest⟩
    · obtain ⟨p, v, q, hmem, -, rfl, hq⟩ := ih hrest
      exact ⟨m :: p, v, q, (mem_below.1 hmem).1, by simp, rfl, hq⟩

/-- Where no path of an entry begins another one, a path through an entry goes on in its value. -/
theorem resolveMembers_entry (hfree : Path.PrefixFree entries) (hmem : (p, v) ∈ entries) (hp : p ≠ [])
    (h : sc.resolveMembers schema v q = .ok e) : sc.resolveMembers schema (.composite entries) (p ++ q) = .ok e := by
  induction p generalizing entries with
  | nil => exact absurd rfl hp
  | cons m rest ih =>
    rw [cons_append, resolveMembers_cons]
    simp only [resolveMember_composite, Node.memberOf?_eq_some]
    by_cases hrest : rest = []
    · subst hrest
      exact ⟨v, .inl (hfree.lookup_eq hmem), h⟩
    · have hbelow : (rest, v) ∈ Path.below entries [m] := mem_below.2 ⟨hmem, hrest⟩
      refine ⟨_, .inr ⟨?_, ne_nil_of_mem hbelow, rfl⟩, ih (hfree.below _) hbelow hrest⟩
      rw [lookup_eq_none_iff]
      rintro entry hentry
      rw [bne_iff_ne]
      intro hm
      have heq := hfree.eq_of_begins hentry hmem (hm ▸ ⟨rest, rfl⟩)
      rw [heq] at hm
      exact hrest (List.cons.inj hm).2.symm

mutual

/-- The columns of a value are single values, and stand at its path or below. -/
theorem isSingle_and_begins_of_mem_flatten (n : Node) {base : Path} {leaves : List (Path × Node)}
    (h : sc.flatten schema base n = .ok leaves) : ∀ leaf ∈ leaves, leaf.2.isSingle = true ∧ base <+: leaf.1 := by
  cases n with
  | composite entries =>
    rw [flatten] at h
    intro leaf hleaf
    obtain ⟨hsingle, entry, -, hbegin⟩ := isSingle_and_begins_of_mem_flattenEntries entries h leaf hleaf
    exact ⟨hsingle, (prefix_append base entry.1).trans hbegin⟩
  | source a =>
    simp only [flatten, bind_eq_ok, pure_eq_ok] at h
    obtain ⟨columns, hcolumns, rfl⟩ := h
    intro leaf hleaf
    obtain ⟨c, hc, rfl⟩ := mem_map.1 hleaf
    exact ⟨isSingle_sourceLeaves hcolumns c hc, prefix_append base c.1⟩
  | grouping key element =>
    rw [flatten] at h
    exact isSingle_and_begins_of_mem_flatten key h
  | select | placeholder | table | union | update | delete => exact absurd h throw_ne_ok
  | _ =>
    simp only [flatten, pure_eq_ok] at h
    subst h
    exact forall_mem_singleton.2 ⟨rfl, prefix_refl base⟩

theorem isSingle_and_begins_of_mem_flattenEntries (entries : List (Path × Node)) {base : Path}
    {leaves : List (Path × Node)}
    (h : sc.flattenEntries schema base entries = .ok leaves) :
    ∀ leaf ∈ leaves, leaf.2.isSingle = true ∧ ∃ entry ∈ entries, base ++ entry.1 <+: leaf.1 := by
  match entries with
  | [] =>
    rw [flattenEntries, pure_eq_ok] at h
    subst h
    simp
  | (p, n) :: rest =>
    simp only [flattenEntries, bind_eq_ok, pure_eq_ok] at h
    obtain ⟨first, hfirst, others, hothers, rfl⟩ := h
    intro leaf hleaf
    rcases mem_append.1 hleaf with hleaf | hleaf
    · obtain ⟨hsingle, hbegin⟩ := isSingle_and_begins_of_mem_flatten n hfirst leaf hleaf
      exact ⟨hsingle, (p, n), mem_cons_self, hbegin⟩
    · obtain ⟨hsingle, entry, hentry, hbegin⟩ := isSingle_and_begins_of_mem_flattenEntries rest hothers leaf hleaf
      exact ⟨hsingle, entry, mem_cons_of_mem _ hentry, hbegin⟩

end

/-- A path through an entry leads to what the rest of the path finds among the columns of the entry, if
none of them stands in the way. -/
theorem leads_flattenEntries {T : List (Path × Node)} (hfree : Path.PrefixFree entries)
    (hmem : (p, v) ∈ entries) (hp : p ≠ []) (hT : sc.flatten schema p v = .ok (T.map fun leaf => (p ++ leaf.1, leaf.2)))
    (halone : ∀ leaf ∈ T, leaf.1 <+: q → leaf.1 = q) (hfound : T.lookup q = some e)
    (hleaves : sc.flattenEntries schema [] entries = .ok leaves) : Path.Leads leaves (p ++ q) e := by
  induction entries generalizing leaves with
  | nil => cases hmem
  | cons entry rest ih =>
    simp only [flattenEntries, nil_append, bind_eq_ok, pure_eq_ok] at hleaves
    obtain ⟨first, hfirst, others, hothers, rfl⟩ := hleaves
    obtain ⟨hother, hrest⟩ := pairwise_cons.1 hfree
    rcases mem_cons.1 hmem with rfl | hmem
    · rw [hT] at hfirst
      obtain rfl := Except.ok.inj hfirst
      -- A column of another entry stands at no part of the path: else one of the two entries would
      -- begin the other.
      have hout : ∀ leaf ∈ others, ¬leaf.1 <+: p ++ q := by
        intro leaf hleaf hbegin
        obtain ⟨-, entry, hentry, hbase⟩ := isSingle_and_begins_of_mem_flattenEntries rest hothers leaf hleaf
        rcases prefix_or_prefix_of_prefix (prefix_append p q) (hbase.trans hbegin) with h | h
        · exact (hother entry hentry).1 h
        · exact (hother entry hentry).2 h
      refine ⟨append_ne_nil_of_left_ne_nil hp q, fun leaf hleaf _ hbegin => ?_, ?_⟩
      · rcases mem_append.1 hleaf with hleaf | hleaf
        · obtain ⟨t, ht, rfl⟩ := mem_map.1 hleaf
          rw [prefix_append_right_inj] at hbegin
          rw [halone t ht hbegin]
        · exact absurd hbegin (hout leaf hleaf)
      · rw [lookup_append, lookup_map_append, hfound, Option.some_or]
    · have hout : ∀ leaf ∈ first, ¬leaf.1 <+: p ++ q := by
        intro leaf hleaf hbegin
        have hbase := (isSingle_and_begins_of_mem_flatten _ hfirst leaf hleaf).2
        rcases prefix_or_prefix_of_prefix (hbase.trans hbegin) (prefix_append p q) with h | h
        · exact (hother (p, v) hmem).1 h
        · exact (hother (p, v) hmem).2 h
      obtain ⟨hne, halone', hfound'⟩ := ih hrest hmem hothers
      refine ⟨hne, fun leaf hleaf hnil hbegin => ?_, ?_⟩
      · rcases mem_append.1 hleaf with hleaf | hleaf
        · exact absurd hbegin (hout leaf hleaf)
        · exact halone' leaf hleaf hnil hbegin
      · have hnone : first.lookup (p ++ q) = none := by
          rw [lookup_eq_none_iff]
          intro leaf hleaf
          rw [bne_iff_ne]
          exact fun heq => hout leaf hleaf (heq ▸ prefix_refl _)
        rw [lookup_append, hnone, Option.none_or, hfound']

theorem flatten_of_isSingle (hn : n.isSingle = true) : sc.flatten schema base n = .ok [(base, n)] := by
  cases n <;> first | cases hn; done | rfl

/-- A path below a path of a data source that names its columns leads to the same column as both
together. -/
theorem resolveMembers_resolvePath {sc' : Scope}
    (ha : sc.shape? a = some (.columns columns rowEntity)) (hp : p ≠ []) (hq : q ≠ [])
    (hleads : Path.Leads (columns.map fun c => (c.1, Node.column a c.2)) (p ++ q) e)
    (hn : sc.resolvePath schema a p = .ok n) : sc'.resolveMembers schema n q = .ok e := by
  simp only [resolvePath, shape, ha, bind_eq_ok, orThrow_eq_ok, Option.some.injEq] at hn
  obtain ⟨shape, rfl, hn⟩ := hn
  rw [orThrow_eq_ok, resolveColumns] at hn
  split at hn
  · next found name hfind =>
    -- A column at the path itself would stand in the way of the longer one.
    have hat : found = p := by simpa using find?_some hfind
    have hmem := mem_map_of_mem (f := fun c => (c.1, Node.column a c.2)) (mem_of_find?_eq_some hfind)
    have hlong := hleads.alone _ hmem (hat ▸ hp) (hat ▸ prefix_append p q)
    exact absurd (append_right_eq_self.1 (hlong.symm.trans hat)) hq
  · have hbelow : columns.filterMap (fun x => (x.1.after? p).map (·, Node.column a x.2)) =
        Path.below (columns.map fun c => (c.1, Node.column a c.2)) p := by
      rw [Path.below, filterMap_map]
      rfl
    split at hn
    · cases hn
    · obtain rfl := Option.some.inj hn
      rw [hbelow]
      refine ((resolveMembers_iff_leads fun entry hentry => ?_).2 (hleads.below hq)).1
      obtain ⟨hmem, -⟩ := mem_below.1 hentry
      obtain ⟨c, -, hc⟩ := mem_map.1 hmem
      rw [← (Prod.mk.inj hc).2]
      rfl

end Scope

/-! ## The value of a row of a select -/

/-- A value that is made up of a select: one of its rows, or single values and rows of it at paths of
which none begins another one. -/
inductive Sql.Select.MakesUp (s : Select) : Node → Prop
  | row {a : Alias} (ha : a ∈ s.aliases) : MakesUp s (.source a)
  | entries {entries : List (Path × Node)} (hfree : Path.PrefixFree entries)
      (hentries : ∀ entry ∈ entries, entry.2.isSingle = true ∨ ∃ a ∈ s.aliases, entry.2 = .source a) :
      MakesUp s (.composite entries)

/-- A path leads into a row that stands at a path of a value and has a column without a path. That
column stands at the path of the whole row when the value is put out. -/
def Scope.Shadowed (schema : Schema) (sc : Scope) (n : Node) (path : Path) : Prop :=
  ∃ entries p a q L, n = .composite entries ∧ (p, .source a) ∈ entries ∧ path = p ++ q ∧ q ≠ [] ∧
    sc.sourceLeaves schema a = .ok L ∧ [] ∈ L.map (·.1)

namespace Scope

variable {entries : List (Path × Node)}

/-- A path through a row of a value leads to a column of the value. -/
theorem leads_of_row (hfree : Path.PrefixFree entries) (hmem : (p, .source a) ∈ entries) (hp : p ≠ [])
    (hL : sc.sourceLeaves schema a = .ok L) (hnil : [] ∉ L.map (·.1)) (hq : Path.Leads L q e)
    (hleaves : sc.flattenEntries schema [] entries = .ok leaves) : Path.Leads leaves (p ++ q) e := by
  refine leads_flattenEntries hfree hmem hp (bind_eq_ok.2 ⟨L, hL, rfl⟩) (fun leaf hleaf hbegin => ?_) hq.found hleaves
  exact hq.alone leaf hleaf (fun hempty => hnil (hempty ▸ mem_map_of_mem hleaf)) hbegin

/-- What a path leads to below a value stands at that path among the columns of the value. -/
theorem leads_flatten (hn : s.MakesUp n) (hleaves : sc.flatten schema [] n = .ok leaves)
    (h : sc.resolveMembers schema n path = .ok e) (he : e.isSingle = true) (hout : ¬sc.Shadowed schema n path) :
    Path.Leads leaves path e := by
  cases hn with
  | row ha =>
    obtain ⟨L, hL, hleads⟩ := resolveMembers_source.1 ⟨h, he⟩
    simp only [flatten, hL, nil_append] at hleaves
    obtain rfl := Except.ok.inj hleaves
    simpa using hleads
  | entries hfree hentries =>
    obtain ⟨p, v, q, hmem, hp, rfl, hq⟩ := exists_entry_of_resolveMembers h he
    rw [flatten] at hleaves
    rcases hentries _ hmem with hv | ⟨a, -, rfl⟩
    · obtain rfl := eq_nil_of_isSingle hv hq
      obtain rfl := Except.ok.inj hq
      refine leads_flattenEntries hfree hmem hp (T := [([], v)]) ?_ (by simp) (by simp) hleaves
      rw [flatten_of_isSingle hv]
      simp
    · obtain ⟨L, hL, hleads⟩ := resolveMembers_source.1 ⟨hq, he⟩
      refine leads_of_row hfree hmem hp hL (fun hnil => hout ?_) hleads hleaves
      exact ⟨_, p, a, q, L, rfl, hmem, rfl, hleads.ne_nil, hL, hnil⟩

end Scope

namespace Sql

/-- The column at a path of a closed select that puts out the columns of a value. -/
theorem Derived.exists_column {d : Derived} (hd : d.columns = nameColumns leaves) (a : Alias)
    (h : Path.Leads leaves path e) : ∃ c ∈ d.columns, c.expr = e ∧
      Path.Leads (d.columnPaths.map fun c => (c.1, Node.column a c.2)) path (.column a c.name) := by
  have hexpr : (d.columns.map fun c => (c.path, c)).map (fun entry => (entry.1, entry.2.expr)) = leaves := by
    rw [hd, map_map]
    exact map_nameColumnsFrom [] leaves
  rw [← hexpr, leads_map] at h
  obtain ⟨c, hc, rfl⟩ := h
  obtain ⟨c', hc', heq⟩ := mem_map.1 (mem_of_lookup hc.found)
  obtain rfl := (Prod.mk.inj heq).2
  refine ⟨c', hc', rfl, ?_⟩
  have hname : Path.Leads ((d.columns.map fun c => (c.path, c)).map fun entry =>
      (entry.1, Node.column a entry.2.name)) path (.column a c'.name) :=
    (leads_map (f := fun c : OutputColumn => Node.column a c.name)).2 ⟨c', hc, rfl⟩
  rw [map_map] at hname
  rw [Derived.columnPaths, map_map]
  exact hname

theorem source_of_beq {x : Node} (h : (Node.source a == x) = true) : x = .source a := by
  cases x <;> first | exact absurd h Bool.false_ne_true | skip
  next b =>
    have hab : (a == b) = true := h
    rw [eq_of_beq hab]

theorem composite_of_beq {x : Node} {entries : List (Path × Node)} (h : (Node.composite entries == x) = true) :
    ∃ others, x = .composite others ∧ beqEntries entries others = true := by
  cases x <;> first | exact absurd h Bool.false_ne_true | exact ⟨_, rfl, h⟩

/-- Equal entries have the same paths, and equal values at each. -/
theorem entries_of_beq (h : beqEntries xs ys = true) : xs.map (·.1) = ys.map (·.1) ∧
    ∀ p v, (p, v) ∈ xs → ∃ v', (p, v') ∈ ys ∧ (v == v') = true := by
  induction xs generalizing ys with
  | nil =>
    cases ys with
    | nil => exact ⟨rfl, fun _ _ hmem => nomatch hmem⟩
    | cons => cases h
  | cons x xs ih =>
    cases ys with
    | nil => cases h
    | cons y ys =>
      obtain ⟨hxy, hrest⟩ := Bool.and_eq_true_iff.1 h
      obtain ⟨hpath, hvalue⟩ := Bool.and_eq_true_iff.1 hxy
      obtain ⟨hpaths, hvalues⟩ := ih hrest
      refine ⟨by rw [map_cons, map_cons, eq_of_beq hpath, hpaths], fun p v hmem => ?_⟩
      rcases mem_cons.1 hmem with rfl | hmem
      · exact ⟨y.2, mem_cons.2 (.inl (Prod.ext (eq_of_beq hpath) rfl)), hvalue⟩
      · obtain ⟨v', hv', heq⟩ := hvalues p v hmem
        exact ⟨v', mem_cons_of_mem _ hv', heq⟩

namespace Select

/-- Neither a whole row nor a value of several columns equals a single value. -/
theorem find?_eq_none_of_isSingle (h : ∀ r ∈ replacements, r.1.isSingle = true)
    (hn : (∃ a, n = .source a) ∨ ∃ entries, n = .composite entries) : replacements.find? (·.1 == n) = none := by
  refine find?_eq_none.2 fun r hr heq => ?_
  have hsingle := h r hr
  obtain ⟨a, rfl⟩ | ⟨entries, rfl⟩ := hn
  all_goals
    cases hr1 : r.1 <;> rw [hr1] at heq hsingle <;> first | cases hsingle; done | exact absurd heq Bool.false_ne_true

theorem remap_source (h : ∀ r ∈ replacements, r.1.isSingle = true) {value : Node}
    (hvalue : expansions.lookup a = some value) : remap replacements expansions (.source a) = value := by
  simp only [remap, find?_eq_none_of_isSingle h (.inl ⟨a, rfl⟩), hvalue, Option.getD_some]

theorem remap_composite (h : ∀ r ∈ replacements, r.1.isSingle = true) (entries : List (Path × Node)) :
    remap replacements expansions (.composite entries) =
      .composite (entries.map fun entry => (entry.1, remap replacements expansions entry.2)) := by
  simp only [remap, find?_eq_none_of_isSingle h (.inr ⟨entries, rfl⟩), remapEntries_eq]

variable {w : Wrapped} {entries : List (Path × Node)}

/-- A row in the old value gets the value at one of its places. -/
theorem Wrapped.exists_expansion (he : w.expansions schema sc = .ok expansions)
    (hshape : w.oldShape = .composite entries) (hmem : (p, .source a) ∈ entries) (ha : a ∈ w.oldAliases) :
    ∃ p' value, (p', .source a) ∈ entries ∧ sc.resolvePath schema w.name p' = .ok value ∧
      expansions.lookup a = some value := by
  have hplaces : ∀ x ∈ expansions, ∃ p', (p', .source x.1) ∈ entries ∧ sc.resolvePath schema w.name p' = .ok x.2 := by
    intro x hx
    rcases w.expansions_eq_ok he x hx with ⟨h, -⟩ | ⟨_, p', h, hmem, -, hvalue⟩
    · cases hshape.symm.trans h
    · cases hshape.symm.trans h
      exact ⟨p', hmem, hvalue⟩
  rw [Wrapped.expansions, hshape] at he
  have hthere : a ∈ expansions.map (·.1) := by
    refine foldlM_of_mem (P := fun found : List (Alias × Node) => a ∈ found.map (·.1)) he hmem
      (fun found more hmore => ?_) fun entry _ found more hfound hmore => ?_
    · simp only [contains_iff_mem.2 ha, if_true, bind_eq_ok, pure_eq_ok] at hmore
      obtain ⟨value, -, rfl⟩ := hmore
      simp
    · split at hmore
      · split at hmore
        · simp only [bind_eq_ok, pure_eq_ok] at hmore
          obtain ⟨value, -, rfl⟩ := hmore
          rw [map_append]
          exact mem_append_left _ hfound
        · exact pure_eq_ok.1 hmore ▸ hfound
      · exact pure_eq_ok.1 hmore ▸ hfound
  obtain ⟨x, hx, rfl⟩ := mem_map.1 hthere
  obtain ⟨value, hlookup⟩ := exists_lookup hx
  obtain ⟨p', hp', hvalue⟩ := hplaces _ (mem_of_lookup hlookup)
  exact ⟨p', value, hp', hvalue, hlookup⟩

theorem currentShape_withKeyProjection (h : s.MakesUp (s.currentShape sc)) :
    s.withKeyProjection.currentShape sc = s.currentShape sc := by
  unfold withKeyProjection
  split
  · next hnone =>
    rw [Option.isNone_iff_eq_none] at hnone
    cases hgroup : s.groupBy with
    | none =>
      obtain ⟨⟩ := s
      cases hnone
      cases hgroup
      rfl
    | some key =>
      simp only [currentShape, hnone, hgroup] at h
      cases h
  · rfl

end Select

end Sql

namespace Scope

section

variable (ha : sc.shape? a = some (.columns columns rowEntity))
  (h : Path.Leads (columns.map fun c =>
  (c.1, Node.column a c.2)) path e)

include ha h

theorem resolveMembers_columns :
    sc.resolveMembers schema (.source a) path = .ok e := by
  refine (resolveMembers_source.2 ⟨_, ?_, h⟩).1
  simp only [sourceLeaves, shape, ha, orThrow]
  rfl

/-- A data source with a column at a path has rows of its own. -/
theorem sourceValue_of_leads : sc.sourceValue a = .source a := by
  have hsingle : (SourceShape.columns columns rowEntity).single? = none := by
    unfold SourceShape.single?
    split
    · next hcolumns =>
      obtain ⟨rfl, -⟩ := SourceShape.columns.inj hcolumns
      have hfound := h.found
      rw [map_singleton, lookup_cons, beq_eq_false_iff_ne.2 h.ne_nil] at hfound
      cases hfound
    · rfl
  rw [sourceValue, ha, Option.bind_some, hsingle]

end

end Scope

namespace Sql.Select

variable {w : Wrapped}

/-- A value that equals the old one, with the columns of the new select in its place, leads to such a
column where it led to a single value.

**Proof sketch.** A row of the old select becomes the row of the new one. In a value of several columns,
the path goes through one of the entries. A single value there is an output expression, so that a column
takes its place. A row there becomes the value below one of its places, and the columns of that value
are those of the row, wherever it stands. -/
theorem Wrapped.resolves_remap (hmade : s.MakesUp w.oldShape) (haliases : w.oldAliases = s.aliases)
    (hleaves : sc.flatten schema [] w.oldShape = .ok leaves) (hcolumns : w.closed.columns = nameColumns leaves)
    (hknown : inner.shape? w.name = some (.columns w.closed.columnPaths rowEntity))
    (hafter : after.shape? w.name = some (.columns w.closed.columnPaths rowEntity))
    (he : w.expansions schema inner = .ok expansions) (hpath : sc.resolveMembers schema w.oldShape path = .ok e)
    (hsingle : e.isSingle = true) (hout : ¬sc.Shadowed schema w.oldShape path) (hb : (w.oldShape == b) = true) :
    ∃ e', sc.resolveMembers schema b path = .ok e' ∧ (e == e') = true ∧ ∃ c ∈ w.closed.columns, (c.expr == e') = true ∧
        after.resolveMembers schema (remap w.replacements expansions b) path = .ok (.column w.name c.name) := by
  have hreplacements : ∀ r ∈ w.replacements, r.1.isSingle = true := by
    intro r hr
    obtain ⟨c, hc, rfl⟩ := mem_map.1 hr
    rw [hcolumns] at hc
    exact (isSingle_and_begins_of_mem_flatten _ hleaves _ (mem_nameColumnsFrom hc)).1
  have hcolumn : ∀ {x : Alias} {L : List (Path × Node)} {q : Path}, sc.sourceLeaves schema x = .ok L →
      Path.Leads L q e → (e == e) = true := by
    intro x L q hL hq
    obtain ⟨name, hname⟩ := exists_column_of_sourceLeaves hL (q, e) (mem_of_lookup hq.found)
    simp only at hname
    subst hname
    simp [BEq.beq, Node.beq]
  generalize hold : w.oldShape = old at *
  cases hmade with
  | @row x hx =>
    obtain rfl := source_of_beq hb
    obtain ⟨L, hL, hq⟩ := resolveMembers_source.1 ⟨hpath, hsingle⟩
    have hleads := leads_flatten (.row hx) hleaves hpath hsingle hout
    obtain ⟨c, hc, hexpr, hnew⟩ := Derived.exists_column hcolumns w.name hleads
    refine ⟨e, hpath, hcolumn hL hq, c, hc, hexpr ▸ hcolumn hL hq, ?_⟩
    rw [Wrapped.expansions, hold, pure_eq_ok] at he
    have hlookup : expansions.lookup x = some (inner.sourceValue w.name) := by simp [← he]
    rw [remap_source hreplacements hlookup, sourceValue_of_leads hknown hnew]
    exact resolveMembers_columns hafter hnew
  | @entries entries hfree hentries =>
    obtain ⟨others, rfl, hothers⟩ := composite_of_beq hb
    obtain ⟨hpaths, hvalues⟩ := entries_of_beq hothers
    obtain ⟨p, v, q, hmem, hp, rfl, hq⟩ := exists_entry_of_resolveMembers hpath hsingle
    obtain ⟨v', hmem', hv'⟩ := hvalues p v hmem
    have hfree' : Path.PrefixFree others := by
      rw [prefixFree_iff, ← hpaths]
      exact prefixFree_iff.1 hfree
    have hfree'' : Path.PrefixFree (others.map fun x => (x.1, remap w.replacements expansions x.2)) := by
      rw [prefixFree_iff, map_map]
      exact prefixFree_iff.1 hfree'
    have hmem'' := mem_map_of_mem (f := fun x => (x.1, remap w.replacements expansions x.2)) hmem'
    rw [remap_composite hreplacements]
    rcases hentries _ hmem with hv | ⟨x, hx, rfl⟩
    · obtain rfl := eq_nil_of_isSingle hv hq
      obtain rfl := Except.ok.inj hq
      have hleads := leads_flatten (.entries hfree hentries) hleaves hpath hsingle hout
      obtain ⟨c, hc, hexpr, -⟩ := Derived.exists_column hcolumns w.name hleads
      have hthere : (w.replacements.find? (·.1 == v')).isSome := by
        refine find?_isSome.2 ⟨_, mem_map_of_mem hc, ?_⟩
        rw [hexpr]
        exact hv'
      obtain ⟨r, hr⟩ := Option.isSome_iff_exists.1 hthere
      obtain ⟨c', hc', rfl⟩ := mem_map.1 (mem_of_find?_eq_some hr)
      have hc'' : (c'.expr == v') = true := by simpa using find?_some hr
      refine ⟨v', resolveMembers_entry hfree' hmem' hp rfl, hv', c', hc', hc'',
        resolveMembers_entry hfree'' hmem'' hp ?_⟩
      rw [remap_of_some hr]
      rfl
    · obtain rfl := source_of_beq hv'
      obtain ⟨L, hL, hq'⟩ := resolveMembers_source.1 ⟨hq, hsingle⟩
      have hnil : [] ∉ L.map (·.1) := fun hnil =>
        hout ⟨entries, p, x, q, L, rfl, hmem, rfl, hq'.ne_nil, hL, hnil⟩
      obtain ⟨p', value, hplace, hvalue, hlookup⟩ := w.exists_expansion he hold hmem (haliases ▸ hx)
      have hp' : p' ≠ [] := by
        rintro rfl
        exact hp (Prod.mk.inj (hfree.eq_of_begins hplace hmem ⟨p, rfl⟩)).1.symm
      obtain ⟨c, hc, hexpr, hnew⟩ := Derived.exists_column hcolumns w.name
        (leads_of_row hfree hplace hp' hL hnil hq' hleaves)
      refine ⟨e, resolveMembers_entry hfree' hmem' hp hq, hcolumn hL hq', c, hc,
        hexpr ▸ hcolumn hL hq', resolveMembers_entry hfree'' hmem'' hp ?_⟩
      rw [remap_source hreplacements hlookup]
      exact resolveMembers_resolvePath hknown hp' hq'.ne_nil hnew hvalue

end Sql.Select

open Sql.Select

/-- **Wrapping keeps what paths lead to.** Let the value of a row of a select be a row of it, or consist
of single values and such rows at paths of which none begins another one. If the select is wrapped, then
each path that led to a single value leads to a column of the new data source now, which puts out that
value. A parameter whose value equalled the value of a row leads to such a column as well: its output
expression and the value equal what the parameter led to. Left out are paths into a row that stands among
other columns and has a column without a path.

**Proof sketch.** The columns of the closed select are the single values of the old value, each at its
path, so that the first one at a path holds what the path led to. No other column stands at a part of the
path, since entries would begin each other otherwise, or a column without a path would be in the way. -/
theorem wrap_resolves_members {schema : Schema} {s t : Select} {sc after : Scope}
    (h : s.wrap schema sc = .ok (t, after)) (hmade : s.MakesUp (s.currentShape sc)) :
    ∃ a d, t.sources = [⟨a, .derived d, none, none⟩] ∧ d.select = s.withKeyProjection ∧
      ∀ path e, sc.resolveMembers schema (s.currentShape sc) path = .ok e → e.isSingle = true →
        ¬sc.Shadowed schema (s.currentShape sc) path → (∃ c ∈ d.columns, c.expr = e ∧
          after.resolveMembers schema (t.currentShape after) path = .ok (.column a c.name)) ∧
        List.Forall₂ (fun old new => new.1 = old.1 ∧ ((s.currentShape sc == old.2) = true →
          ∃ e', sc.resolveMembers schema old.2 path = .ok e' ∧ (e == e') = true ∧
            ∃ c ∈ d.columns, (c.expr == e') = true ∧ after.resolveMembers schema new.2 path = .ok (.column a c.name)))
          sc.params after.params := by
  obtain ⟨w, inner, expansions, hw, he, rfl, rfl⟩ := wrap_eq_ok h
  obtain ⟨leaves, hleaves, hclosed, hname, hselect, hshape, haliases, hinner⟩ := enclose_eq_ok hw
  rw [currentShape_withKeyProjection hmade, ← hshape] at hleaves
  rw [← hshape] at hmade ⊢
  have hcolumns : w.closed.columns = nameColumns leaves := by rw [hclosed]
  have hknown : ∀ params, ({ inner with params := params } : Scope).shape? w.name =
      some (.columns w.closed.columnPaths w.closed.rowEntity) := by
    intro params
    rw [hinner]
    simp [Scope.register, Scope.shape?, SourceShape.ofRelation]
  refine ⟨w.name, w.closed, by rw [hselect], by rw [hclosed], fun path e hpath hsingle hout => ⟨?_, ?_⟩⟩
  · obtain ⟨c, hc, hexpr, hnew⟩ := Derived.exists_column hcolumns w.name
      (leads_flatten hmade hleaves hpath hsingle hout)
    refine ⟨c, hc, hexpr, ?_⟩
    rw [hselect]
    change Scope.resolveMembers schema _ (Scope.sourceValue _ w.name) path = _
    rw [sourceValue_of_leads (hknown _) hnew]
    exact resolveMembers_columns (hknown _) hnew
  · rw [forall₂_map_right_iff, forall₂_same]
    rintro ⟨name, n⟩ -
    exact ⟨rfl, w.resolves_remap hmade haliases hleaves hcolumns (hknown inner.params) (hknown _) he hpath hsingle hout⟩

namespace Sample

/-- A value of a row and a number. -/
def rowAndNumber : Node := .composite [(["A"], .source ⟨1⟩), (["K"], .literal (.int 1))]

/-- A select that reads some columns and puts out a row and a number. -/
def numberedRows (columns : List (Path × String)) : Select :=
  { Select.empty with sources := [⟨⟨1⟩, .cte ⟨9⟩ columns, none, none⟩], projection := some rowAndNumber }

/-- A scope that knows the columns, and in which a parameter stands for the value of a row. -/
def numberedScope (columns : List (Path × String)) : Scope :=
  ⟨[("x", rowAndNumber)], [(⟨1⟩, .columns columns none)], ⟨1⟩⟩

theorem numberedRows_makesUp (columns : List (Path × String)) : (numberedRows columns).MakesUp rowAndNumber := by
  refine .entries (prefixFree_iff.2 (by decide)) fun entry hentry => ?_
  rcases mem_cons.1 hentry with rfl | hentry
  · exact .inr ⟨⟨1⟩, mem_singleton_self _, rfl⟩
  · obtain rfl := mem_singleton.1 hentry
    exact .inl rfl

/-- A member of the row is a column of the wrapped select, for its rows and for the parameter. -/
theorem numberedRows_resolves : ∃ t after c c' value,
    (numberedRows [(["m"], "w")]).wrap ⟨[]⟩ (numberedScope [(["m"], "w")]) = .ok (t, after) ∧
      after.resolveMembers ⟨[]⟩ (t.currentShape after) ["A", "m"] = .ok (.column ⟨3⟩ c) ∧
      ("x", value) ∈ after.params ∧ after.resolveMembers ⟨[]⟩ value ["A", "m"] = .ok (.column ⟨3⟩ c') := by
  have hwrap : ∃ t after, (numberedRows [(["m"], "w")]).wrap ⟨[]⟩ (numberedScope [(["m"], "w")]) = .ok (t, after) :=
    ⟨_, _, rfl⟩
  obtain ⟨t, after, hwrap⟩ := hwrap
  obtain ⟨a, d, hsources, -, hall⟩ := wrap_resolves_members hwrap (numberedRows_makesUp _)
  have ha : a = ⟨3⟩ := by
    cases hwrap
    cases hsources
    rfl
  subst ha
  have hout : ¬(numberedScope [(["m"], "w")]).Shadowed ⟨[]⟩ rowAndNumber ["A", "m"] := by
    rintro ⟨entries, p, x, q, L, hn, hmem, -, -, hL, hnil⟩
    cases hn
    have hx : x = ⟨1⟩ := by simpa using mem_map_of_mem (f := fun entry => entry.2) hmem
    subst hx
    cases hL
    simp at hnil
  obtain ⟨⟨c, -, -, hc⟩, hparams⟩ := hall ["A", "m"] (.column ⟨1⟩ "w") rfl rfl hout
  obtain ⟨⟨name, value⟩, _, ⟨rfl, hx⟩, -, hafter⟩ := forall₂_cons_left_iff.1 hparams
  obtain ⟨e', -, -, c', -, -, hc'⟩ := hx rfl
  exact ⟨t, after, c.name, c'.name, value, hwrap, hc, hafter ▸ mem_cons_self, hc'⟩

/-- If the row has a column without a path as well, its other members are not found any more. -/
theorem numberedRows_lost : (numberedRows [([], "v"), (["m"], "w")]).MakesUp
        ((numberedRows [([], "v"), (["m"], "w")]).currentShape (numberedScope [([], "v"), (["m"], "w")])) ∧
      (numberedScope [([], "v"), (["m"], "w")]).resolveMembers ⟨[]⟩ rowAndNumber ["A", "m"] =
        .ok (.column ⟨1⟩ "w") ∧
      ∃ t after, (numberedRows [([], "v"), (["m"], "w")]).wrap ⟨[]⟩ (numberedScope [([], "v"), (["m"], "w")]) =
        .ok (t, after) ∧
        ∀ n, after.resolveMembers ⟨[]⟩ (t.currentShape after) ["A", "m"] ≠ .ok n :=
  ⟨numberedRows_makesUp _, rfl, _, _, rfl, fun _ h => nomatch h⟩

end Sample

end QueryLowering
