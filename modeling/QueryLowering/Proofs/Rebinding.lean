import QueryLowering.Proofs.Values

/-!
# Bound values of a wrapped select

When a select is closed and read by a new one, the parameters that stand for its values are bound to
columns of the new select. Which values stand for values of the old select is not recorded. A value is
taken for one if it equals an output expression, and a whole row if it is the row that the old select
shows. So a value that has nothing to do with the old select, but holds an expression that this select
puts out as well, is bound to a column of the new select too.

## Main results

* `Sql.Select.wrap_eq_ok`: what a wrapped select and the scope after it are made of.
* `Sql.Select.remap_eq_self`, `Sql.Select.mention_remap`: a value of which no part is replaced stays as
  it is; otherwise it mentions the new data source.
* `wrap_keeps_unless_captured`: what wrapping does to values without data sources of the old select.
-/

namespace QueryLowering

open Sql Result List

variable {replacements : List (Node × Node)} {expansions : List (Alias × Node)} {schema : Schema} {s t : Select}
variable {sc after : Scope} {b a : Alias} {n : Node}

namespace Sql

mutual

/-- The values that a value is put together from: itself, and the pieces of its entries, or of its key
and its element. -/
def Node.pieces : Node → List Node
  | .composite entries => .composite entries :: piecesOfEntries entries
  | .grouping key element => .grouping key element :: (key.pieces ++ element.pieces)
  | n => [n]

/-- The pieces of some entries. -/
def piecesOfEntries : List (Path × Node) → List Node
  | [] => []
  | (_, n) :: rest => n.pieces ++ piecesOfEntries rest

end

theorem Node.mem_pieces_self (n : Node) : n ∈ n.pieces := by
  cases n <;> simp [pieces]

theorem piecesOfEntries_eq (entries : List (Path × Node)) :
    piecesOfEntries entries = (entries.map (·.2)).flatMap Node.pieces := by
  induction entries with
  | nil => rfl
  | cons entry rest ih => rw [piecesOfEntries, ih, map_cons, flatMap_cons]

/-- A whole row that is a part of a value is mentioned in it. -/
theorem Node.mention_of_mem_pieces (n : Node) (h : .source b ∈ n.pieces) :
    .mention b ∈ n.harvest marks := by
  induction n using Node.induction_on_operands with
  | step n ih =>
    cases n with
    | composite entries =>
      simp only [pieces, piecesOfEntries_eq, mem_cons, mem_flatMap, reduceCtorEq, false_or] at h
      obtain ⟨m, hm, h⟩ := h
      simp only [harvest, marks_node, mentionOf?, harvestEntries_eq]
      exact mem_flatMap.2 ⟨m, hm, ih m hm h⟩
    | grouping key element =>
      simp only [pieces, mem_cons, mem_append, reduceCtorEq, false_or] at h
      simp only [harvest, marks_node, mentionOf?, mem_append]
      exact h.imp (ih key (by simp [operands])) (ih element (by simp [operands]))
    | source a =>
      simp only [pieces, mem_singleton, source.injEq] at h
      simp [harvest, mentionOf?, h]
    | _ => simp [pieces] at h

namespace Select

/-! ## Values of the old select as values of the new one -/

/-- Something else takes the place of a part. -/
def Replaces (replacements : List (Node × Node)) (expansions : List (Alias × Node)) (part : Node) : Prop :=
  (∃ r ∈ replacements, (r.1 == part) = true) ∨ ∃ b, part = .source b ∧ b ∈ expansions.map (·.1)

theorem find?_eq_none_of_not_replaces (h : ¬Replaces replacements expansions n) :
    replacements.find? (·.1 == n) = none := find?_eq_none.2 fun r hr heq => h (.inl ⟨r, hr, heq⟩)

/-- A value of which no part is replaced stays as it is. -/
theorem remap_eq_self (n : Node) (h : ∀ part ∈ n.pieces, ¬Replaces replacements expansions part) :
    remap replacements expansions n = n := by
  induction n using Node.induction_on_operands with
  | step n ih =>
    have hfind := find?_eq_none_of_not_replaces (h n n.mem_pieces_self)
    cases n with
    | source a =>
      have hlookup : expansions.lookup a = none := by
        rw [lookup_eq_none_iff]
        intro e he
        rw [bne_iff_ne]
        rintro rfl
        exact h _ (Node.mem_pieces_self _) (.inr ⟨_, rfl, mem_map_of_mem he⟩)
      simp only [remap, hfind, hlookup, Option.getD_none]
    | composite entries =>
      simp only [Node.pieces, piecesOfEntries_eq, forall_mem_cons, forall_mem_flatMap] at h
      have hentries : ∀ entry ∈ entries, (entry.1, remap replacements expansions entry.2) = entry := fun entry hentry =>
        Prod.ext rfl (ih entry.2 (mem_map_of_mem hentry) (h.2 entry.2 (mem_map_of_mem hentry)))
      simp only [remap, hfind, remapEntries_eq]
      rw [map_congr_left hentries, map_id']
    | grouping key element =>
      simp only [Node.pieces, forall_mem_cons, forall_mem_append] at h
      simp only [remap, hfind]
      rw [ih key (by simp [Node.operands]) h.2.1, ih element (by simp [Node.operands]) h.2.2]
    | _ => simp only [remap, hfind]

/-- A value of which a part is replaced mentions what is mentioned by all that may take its place. -/
theorem mention_remap (hr : ∀ r ∈ replacements, .mention a ∈ r.2.harvest marks)
    (he : ∀ e ∈ expansions, .mention a ∈ e.2.harvest marks) (n : Node)
    (h : ∃ part ∈ n.pieces, Replaces replacements expansions part) :
    .mention a ∈ (remap replacements expansions n).harvest marks := by
  induction n using Node.induction_on_operands with
  | step n ih =>
    cases hfind : replacements.find? (·.1 == n) with
    | some r =>
      rw [remap_of_some hfind]
      exact hr r (mem_of_find?_eq_some hfind)
    | none =>
      -- The value itself equals no output expression, so it is a row, or the part lies below it.
      have hself : Replaces replacements expansions n → ∃ b, n = .source b ∧ b ∈ expansions.map (·.1) := by
        rintro (⟨r, hr, heq⟩ | hrow)
        · exact absurd heq (find?_eq_none.1 hfind r hr)
        · exact hrow
      cases n with
      | source b =>
        simp only [Node.pieces, mem_singleton, exists_eq_left] at h
        obtain ⟨_, hb, hmem⟩ := hself h
        obtain rfl := Node.source.inj hb
        obtain ⟨e, hmem', rfl⟩ := mem_map.1 hmem
        obtain ⟨value, hlookup⟩ := exists_lookup hmem'
        simp only [remap, hfind, hlookup, Option.getD_some]
        exact he _ (mem_of_lookup hlookup)
      | composite entries =>
        have hbelow : ¬ Replaces replacements expansions (.composite entries) := fun hn => by
          obtain ⟨_, hb, -⟩ := hself hn
          cases hb
        simp only [Node.pieces, piecesOfEntries_eq, mem_cons, mem_flatMap] at h
        obtain ⟨part, rfl | ⟨m, hm, hpart⟩, hreplaces⟩ := h
        · exact absurd hreplaces hbelow
        · obtain ⟨entry, hentry, rfl⟩ := mem_map.1 hm
          simp only [remap, hfind, Node.harvest, marks_node, mentionOf?, harvestEntries_eq, remapEntries_eq,
            map_map]
          exact mem_flatMap.2 ⟨_, mem_map_of_mem hentry, ih entry.2 hm ⟨part, hpart, hreplaces⟩⟩
      | grouping key element =>
        simp only [Node.pieces, mem_cons, mem_append, or_and_right, exists_or, exists_eq_left] at h
        simp only [remap, hfind, Node.harvest, marks_node, mentionOf?, mem_append]
        have h := h.resolve_left fun hn => by
          obtain ⟨_, hb, -⟩ := hself hn
          cases hb
        exact h.imp (ih key (by simp [Node.operands])) (ih element (by simp [Node.operands]))
      | _ =>
        simp only [Node.pieces, mem_singleton, exists_eq_left] at h
        obtain ⟨_, hb, -⟩ := hself h
        cases hb

/-! ## Wrapped selects -/

section

variable {w : Wrapped}

/-- A select that reads the closed select, and the scope in which its data source is known. -/
theorem enclose_eq_ok (h : s.enclose schema sc = .ok (w, after)) : ∃ leaves,
    sc.flatten schema [] (s.withKeyProjection.currentShape sc) = .ok leaves ∧
      w.closed = ⟨sc.lastAlias.next, s.withKeyProjection, nameColumns leaves⟩ ∧ w.name = sc.lastAlias.next.next ∧
      w.select = { empty with sources := [⟨w.name, .derived w.closed, none, none⟩] } ∧
      w.oldShape = s.currentShape sc ∧ w.oldAliases = s.aliases ∧
      after = sc.fresh.2.fresh.2.register w.name (.ofRelation (.derived w.closed)) := by
  simp only [enclose, close, bind_eq_ok, pure_eq_ok, Prod.mk.injEq] at h
  obtain ⟨_, ⟨leaves, hleaves, rfl⟩, rfl, rfl⟩ := h
  exact ⟨leaves, hleaves, rfl, rfl, rfl, rfl, rfl, rfl⟩

/-- A wrapped select reads the closed select, and the scope after it differs from the one in which its
data source is known by what parameters are bound to. -/
theorem wrap_eq_ok (h : s.wrap schema sc = .ok (t, after)) : ∃ w inner expansions,
    s.enclose schema sc = .ok (w, inner) ∧ w.expansions schema inner = .ok expansions ∧ t = w.select ∧
      after = { inner with
        params := sc.params.map fun (name, n) => (name, remap w.replacements expansions n) } := by
  simp only [wrap, Wrapped.rebind, bind_eq_ok, pure_eq_ok, Prod.mk.injEq] at h
  obtain ⟨⟨w, inner⟩, hw, _, ⟨expansions, he, rfl⟩, rfl, rfl⟩ := h
  obtain ⟨_, -, -, -, -, -, -, hinner⟩ := enclose_eq_ok hw
  refine ⟨w, inner, expansions, hw, he, rfl, ?_⟩
  rw [hinner]
  rfl

theorem mention_sourceValue (sc : Scope) (a : Alias) : .mention a ∈ (sc.sourceValue a).harvest marks := by
  unfold Scope.sourceValue
  split <;> simp [Node.harvest, mentionOf?]

/-- What a path below a data source leads to mentions the data source. -/
theorem mention_resolvePath {path : Path} (h : sc.resolvePath schema a path = .ok n) :
    .mention a ∈ n.harvest marks := by
  simp only [Scope.resolvePath, bind_eq_ok] at h
  obtain ⟨shape, -, h⟩ := h
  split at h
  · split at h
    · simp only [bind_eq_ok, pure_eq_ok] at h
      obtain ⟨column, -, rfl⟩ := h
      simp [Node.harvest, mentionOf?]
    · exact absurd h throw_ne_ok
  · rw [orThrow_eq_ok, Scope.resolveColumns] at h
    split at h
    · obtain rfl := Option.some.inj h
      simp [Node.harvest, mentionOf?]
    · split at h
      · cases h
      · next hnested =>
        obtain rfl := Option.some.inj h
        -- The columns below the path are not none, and the first of them is one of the data source.
        obtain ⟨first, rest, hcons⟩ := exists_cons_of_ne_nil hnested
        have hfirst := mem_filterMap.1 (hcons ▸ mem_cons_self)
        obtain ⟨_, -, hafter⟩ := hfirst
        obtain ⟨q, -, rfl⟩ := Option.map_eq_some_iff.1 hafter
        simp [hcons, Node.harvest, harvestEntries, mentionOf?]

/-- What takes the place of whole rows: the row of the new select takes that of the row which the old select shows, and
what its place leads to takes that of a row which the old select owns. -/
theorem Wrapped.expansions_eq_ok (h : w.expansions schema sc = .ok expansions) : ∀ e ∈ expansions,
    w.oldShape = .source e.1 ∧ e.2 = sc.sourceValue w.name ∨ ∃ entries path, w.oldShape = .composite entries ∧
      (path, .source e.1) ∈ entries ∧ e.1 ∈ w.oldAliases ∧ sc.resolvePath schema w.name path = .ok e.2 := by
  unfold Wrapped.expansions at h
  split at h
  · next hshape =>
    obtain rfl := pure_eq_ok.1 h
    exact forall_mem_singleton.2 (.inl ⟨hshape, rfl⟩)
  · next entries hshape =>
    refine fun e he => .inr ⟨entries, foldlM_induction (P := fun found => ∀ e ∈ found, ∃ path,
      w.oldShape = .composite entries ∧ (path, .source e.1) ∈ entries ∧ e.1 ∈ w.oldAliases ∧
        sc.resolvePath schema w.name path = .ok e.2) h (by simp) (fun entry hentry found more hfound hmore => ?_) e he⟩
    split at hmore
    · split at hmore
      · next howned =>
        simp only [bind_eq_ok, pure_eq_ok] at hmore
        obtain ⟨value, hvalue, rfl⟩ := hmore
        exact forall_mem_append.2 ⟨hfound, forall_mem_singleton.2
          ⟨_, hshape, hentry, contains_iff_mem.1 howned, hvalue⟩⟩
      · exact pure_eq_ok.1 hmore ▸ hfound
    · exact pure_eq_ok.1 hmore ▸ hfound
  · obtain rfl := pure_eq_ok.1 h
    exact forall_mem_nil _

/-- What takes the place of a whole row mentions the new data source. -/
theorem Wrapped.mention_expansions (h : w.expansions schema sc = .ok expansions) :
    ∀ e ∈ expansions, .mention w.name ∈ e.2.harvest marks := by
  intro e he
  rcases w.expansions_eq_ok h e he with ⟨-, hvalue⟩ | ⟨_, _, -, -, -, hvalue⟩
  · exact hvalue ▸ mention_sourceValue sc w.name
  · exact mention_resolvePath hvalue

/-- The rows whose place is taken are the row that the old select shows, or rows that it owns. -/
theorem Wrapped.mem_expansions (h : w.expansions schema sc = .ok expansions)
    (hb : b ∈ expansions.map (·.1)) : w.oldShape = .source b ∨ b ∈ w.oldAliases := by
  obtain ⟨e, he, rfl⟩ := mem_map.1 hb
  exact (w.expansions_eq_ok h e he).imp (·.1) fun ⟨_, _, _, _, howned, _⟩ => howned

end

end Select

/-- What is taken for a value of a closed select whose rows have a given value: an output expression, or
the whole row that this value is. -/
def Derived.Captures (d : Derived) (shape part : Node) : Prop :=
  (∃ c ∈ d.columns, (c.expr == part) = true) ∨ ∃ b, part = .source b ∧ shape = .source b

end Sql

open Sql.Select

/-- **Bindings of other selects.** Wrapping a select keeps the names of the parameters. A value in which
no data source of the select is mentioned stays as it is if no part of it is taken for a value of the
select; if one is, the value mentions the data source of the new select afterwards, although it is a
value of another one.

**Proof sketch.** A value changes where a part equals an output expression or is a row that is
expanded. Rows of the select itself are not pieces of such a value, so that only the row which the select
shows is left. All that takes the place of a part mentions the new data source. -/
theorem wrap_keeps_unless_captured {schema : Schema} {s t : Select} {sc after : Scope}
    (h : s.wrap schema sc = .ok (t, after)) :
    ∃ a d, a = sc.lastAlias.next.next ∧ t.sources = [⟨a, .derived d, none, none⟩] ∧ d.select = s.withKeyProjection ∧
      List.Forall₂ (fun old new => new.1 = old.1 ∧ ((∀ b ∈ s.aliases, .mention b ∉ old.2.harvest marks) →
          ((∀ part ∈ old.2.pieces, ¬d.Captures (s.currentShape sc) part) → new.2 = old.2) ∧
          ((∃ part ∈ old.2.pieces, d.Captures (s.currentShape sc) part) → .mention a ∈ new.2.harvest marks)))
        sc.params after.params := by
  obtain ⟨w, inner, expansions, hw, he, rfl, rfl⟩ := wrap_eq_ok h
  obtain ⟨leaves, -, hclosed, hname, hselect, hshape, haliases, -⟩ := enclose_eq_ok hw
  refine ⟨w.name, w.closed, hname, by rw [hselect], by rw [hclosed], ?_⟩
  rw [forall₂_map_right_iff, forall₂_same]
  rintro ⟨name, n⟩ -
  refine ⟨rfl, fun hforeign => ?_⟩
  have hreplaces : ∀ part ∈ n.pieces,
      (Replaces w.replacements expansions part ↔ w.closed.Captures (s.currentShape sc) part) := by
    intro part hpart
    refine or_congr (by simp [Wrapped.replacements]) ⟨?_, ?_⟩
    · rintro ⟨b, rfl, hb⟩
      refine ⟨b, rfl, ?_⟩
      rw [← hshape]
      refine (w.mem_expansions he hb).resolve_right fun howned => ?_
      exact hforeign b (haliases ▸ howned) (n.mention_of_mem_pieces hpart)
    · rintro ⟨b, rfl, hb⟩
      refine ⟨b, rfl, ?_⟩
      rw [Wrapped.expansions, hshape, hb, pure_eq_ok] at he
      simp [← he]
  refine ⟨fun hnone => remap_eq_self n fun part hpart => ?_, ?_⟩
  · rw [hreplaces part hpart]
    exact hnone part hpart
  · rintro ⟨part, hpart, hcaptured⟩
    refine mention_remap (fun r hr => ?_) (w.mention_expansions he) n ⟨part, hpart, (hreplaces part hpart).2 hcaptured⟩
    obtain ⟨c, -, rfl⟩ := mem_map.1 hr
    simp [Node.harvest, mentionOf?]

namespace Sample

/-- A select of courses that puts out a number and their titles. -/
def courseTitles : Select := { Select.empty with
    sources := [⟨⟨2⟩, .table ⟨"Course", ⟨none, "Course"⟩⟩, none, none⟩]
    projection := some (.composite [(["K"], .literal (.int 1)), (["T"], .column ⟨2⟩ "Title")]) }

/-- A scope with a value of another select, which holds the same number. -/
def besideStudents : Scope :=
  ⟨[("y", .composite [(["K"], .literal (.int 1)), (["N"], .column ⟨1⟩ "FullName")])], [], ⟨2⟩⟩

theorem mention_besideStudents {p : String × Node} (hp : p ∈ besideStudents.params) (b : Alias) (hb : b ≠ ⟨1⟩) :
    .mention b ∉ p.2.harvest marks := by
  obtain rfl := mem_singleton.1 hp
  simp [Node.harvest, harvestEntries, mentionOf?, hb]

/-- The number of the other select becomes a column of the wrapped one. -/
theorem courseTitles_captures : ∃ t after old new, courseTitles.wrap ⟨[]⟩ besideStudents = .ok (t, after) ∧
    old ∈ besideStudents.params ∧ new ∈ after.params ∧ new.1 = old.1 ∧
    (∀ b ∈ courseTitles.aliases, .mention b ∉ old.2.harvest marks) ∧ .mention ⟨4⟩ ∉ old.2.harvest marks ∧
    .mention ⟨4⟩ ∈ new.2.harvest marks := by
  have hwrap : ∃ t after, courseTitles.wrap ⟨[]⟩ besideStudents = .ok (t, after) := ⟨_, _, rfl⟩
  obtain ⟨t, after, hwrap⟩ := hwrap
  obtain ⟨a, d, rfl, hsources, -, hparams⟩ := wrap_keeps_unless_captured hwrap
  obtain ⟨new, rest, ⟨hname, hkept⟩, -, hafter⟩ := forall₂_cons_left_iff.1 hparams
  have hforeign := mention_besideStudents mem_cons_self
  obtain ⟨-, hcaptured⟩ := hkept (forall_mem_singleton.2 (hforeign _ (by decide)))
  refine ⟨t, after, _, new, hwrap, mem_cons_self, hafter ▸ mem_cons_self, hname,
    forall_mem_singleton.2 (hforeign _ (by decide)), hforeign _ (by decide), hcaptured ?_⟩
  refine ⟨.literal (.int 1), by simp [Node.pieces, piecesOfEntries], .inl ?_⟩
  have hd : t.sources = [⟨⟨4⟩, .derived ⟨⟨3⟩, courseTitles,
      [⟨["K"], "K", .literal (.int 1)⟩, ⟨["T"], "T", .column ⟨2⟩ "Title"⟩]⟩, none, none⟩] := by
    cases hwrap
    rfl
  rw [hd] at hsources
  cases hsources
  exact ⟨_, mem_cons_self, rfl⟩

end Sample

end QueryLowering
