import QueryLowering.Expr.Codec
import QueryLowering.Proofs.Dates
import QueryLowering.Proofs.JsonText

/-!
# Expressions are read back

A written node holds the name of its kind and those of its fields that are there. A reader that is given
the names of the fields finds each one or its absence, and what an absent field stands for is what it was
left out for. So reading is the inverse of writing for types, values and expressions, as plain data and as
a JSON text.

## Main results

* `Datum.fields?_present`: the fields of a record that holds those that are there.
* `Expr.toDatum_eq_record`: a node is written as its kind and its fields.
* `expr_read_back`: every well-formed expression is read back.
-/

namespace QueryLowering

open List Datum
open Option (mem_toList)

variable {d : Datum} {name : String} {entries : List (String × Datum)} {fuel : Nat} {v : Value} {c e : Expr}
variable {P : Float → Prop} {part : Datum → Option Expr}
variable {α : Type}
variable (p : Param) (m : Manner) (t : Ty)

/-! ## Depth -/

namespace Datum

theorem depth_pos (d : Datum) : 0 < d.depth := by
  cases d with
  | list items => simp [depth]
  | record entries => simp [depth]
  | _ => simp [depth]

theorem depth_le_of_mem_items {items : List Datum} (h : d ∈ items) : d.depth ≤ itemsDepth items := by
  induction items with
  | nil => cases h
  | cons x rest ih =>
    rw [itemsDepth]
    rcases mem_cons.1 h with rfl | h
    · exact Nat.le_max_left _ _
    · exact Nat.le_trans (ih h) (Nat.le_max_right _ _)

theorem entriesDepth_eq (entries : List (String × Datum)) : entriesDepth entries = itemsDepth (entries.map (·.2)) := by
  induction entries with
  | nil => rfl
  | cons x rest ih => rw [entriesDepth, ih, map_cons, itemsDepth]

theorem depth_le_of_mem_entries (h : (name, d) ∈ entries) : d.depth ≤ entriesDepth entries := by
  rw [entriesDepth_eq]
  exact depth_le_of_mem_items (mem_map_of_mem h)

end Datum

/-! ## Lists -/

/-- Reading each of some written items gives the items. -/
theorem mapM_written {β : Type} {read : β → Option α} {write : α → β} {items : List α}
    (h : ∀ a ∈ items, read (write a) = some a) : (items.map write).mapM read = some items := by
  induction items with
  | nil => rfl
  | cons a rest ih =>
    rw [forall_mem_cons] at h
    simp [h.1, ih h.2]

theorem listOf?_written {read : Datum → Option α} {write : α → Datum} {items : List α}
    (h : ∀ a ∈ items, read (write a) = some a) : Datum.listOf? read (.list (items.map write)) = some items :=
  mapM_written h

/-! ## Types -/

theorem Ty.read_toDatum (hfuel : t.toDatum.depth ≤ fuel) :
    read m fuel t.toDatum = some t := by
  induction t generalizing fuel with
  | queryable e ih | enumerable e ih | nullable e ih | array e ih =>
    cases fuel <;> simp [toDatum, Datum.depth, entriesDepth] at hfuel
    change (read m _ e.toDatum >>= fun e => pure _) = _
    rw [ih hfuel]
    rfl
  | grouping k e ihk ihe =>
    cases fuel <;> simp [toDatum, Datum.depth, entriesDepth, Datum.itemsDepth] at hfuel
    rename_i fuel
    have hk : read m fuel k.toDatum = some k := ihk (by omega)
    have he : read m fuel e.toDatum = some e := ihe (by omega)
    simp [toDatum, read, choice?, hk, he]
  | _ =>
    cases fuel with
    | zero => exact absurd hfuel (Nat.not_le.2 (depth_pos _))
    | succ => rfl

@[simp]
theorem Ty.ofDatum?_toDatum : ofDatum? m t.toDatum = some t := t.read_toDatum m (Nat.le_refl _)

@[simp]
theorem Ty.field_toDatum : Ty.field (some t.toDatum) = some t := t.ofDatum?_toDatum _

/-! ## Values -/

namespace Value

theorem itemData_eq (items : List Value) : itemData items = items.map toDatum := by
  induction items with
  | nil => rfl
  | cons v rest ih => rw [itemData, ih, map_cons]

theorem fieldData_eq (fields : List (String × Value)) : fieldData fields = fields.map fun f => (f.1, f.2.toDatum) := by
  induction fields with
  | nil => rfl
  | cons f rest ih => rw [fieldData, ih, map_cons]

/-- A value as programs have it: integers fit into 64 bits, dates exist, the fields of a record stand in the
order of their names, and floats satisfy a condition. -/
inductive WellFormed (P : Float → Prop) : Value → Prop
  | null : WellFormed P null
  | bool (b : Bool) : WellFormed P (bool b)
  | int {n : Int} : isWord n = true → WellFormed P (int n)
  | float {x : Float} : P x → WellFormed P (float x)
  | string (s : String) : WellFormed P (string s)
  | dateTime {d : DateTime} : d.isValid = true → d.nanosecond < 1000000000 → WellFormed P (dateTime d)
  | list {items : List Value} : (∀ v ∈ items, WellFormed P v) → WellFormed P (list items)
  | record {fields : List (String × Value)} : (fields.map (·.1)).Pairwise (· < ·) →
      (∀ f ∈ fields, WellFormed P f.2) → WellFormed P (record fields)
  | table (entity : String) : WellFormed P (table entity)

theorem insertField_append {fields : List (String × Value)}
    (h : ∀ f ∈ fields, f.1 < name) : insertField name v fields = fields ++ [(name, v)] := by
  induction fields with
  | nil => rfl
  | cons f rest ih =>
    obtain ⟨n, w⟩ := f
    rw [forall_mem_cons] at h
    obtain ⟨hn, hrest⟩ := h
    have hne : (n == name) = false := by
      rw [beq_eq_false_iff_ne]
      rintro rfl
      exact String.lt_irrefl _ hn
    rw [insertField, if_neg (by simp [hne]), if_neg (String.lt_asymm hn), ih hrest, cons_append]

theorem foldl_insertField {seen fields : List (String × Value)} (h : ((seen ++ fields).map (·.1)).Pairwise (· < ·)) :
    fields.foldl (fun r (name, v) => insertField name v r) seen = seen ++ fields := by
  induction fields generalizing seen with
  | nil => simp
  | cons f rest ih =>
    have hbefore : ∀ g ∈ seen, g.1 < f.1 := by
      intro g hg
      rw [map_append, pairwise_append] at h
      exact h.2.2 _ (mem_map_of_mem hg) _ mem_cons_self
    rw [foldl_cons]
    simp only [insertField_append hbefore]
    rw [ih (by simpa using h), append_assoc, singleton_append]

theorem ofFields_of_sorted {fields : List (String × Value)} (h : (fields.map (·.1)).Pairwise (· < ·)) :
    ofFields fields = record fields := by
  rw [ofFields, foldl_insertField (by exact h), nil_append]

theorem read_toDatum (hv : v.WellFormed P) (hfuel : v.toDatum.depth ≤ fuel) : read m fuel v.toDatum = some v := by
  induction hv generalizing fuel with
  | null | bool b | float _ | string s | table entity =>
    cases fuel with
    | zero => exact absurd hfuel (Nat.not_le.2 (depth_pos _))
    | succ => rfl
  | int hn =>
    cases fuel <;> simp [toDatum, Datum.depth, entriesDepth] at hfuel
    simp [toDatum, read, choice?, Datum.int?, hn, -isWord_iff]
  | dateTime hd hnano =>
    cases fuel <;> simp [toDatum, Datum.depth, entriesDepth] at hfuel
    simp [toDatum, read, choice?, string?, DateTime.parse?_iso _ hd hnano]
  | @list items _ ih =>
    cases fuel <;> simp [toDatum, Datum.depth, entriesDepth, itemData_eq] at hfuel
    rename_i fuel
    have hitems : (items.map toDatum).mapM (read m fuel) = some items := by
      refine mapM_written fun v hv => ih v hv ?_
      have := depth_le_of_mem_items (mem_map_of_mem (f := toDatum) hv)
      omega
    simp [toDatum, read, choice?, Datum.list?, itemData_eq, hitems]
  | @record fields hsorted _ ih =>
    cases fuel <;> simp [toDatum, Datum.depth, entriesDepth, fieldData_eq] at hfuel
    rename_i fuel
    have hfields : (fields.map fun f => (f.1, f.2.toDatum)).mapM
        (fun x => (read m fuel x.2).bind fun v => some (x.1, v)) = some fields := by
      refine mapM_written fun f hf => ?_
      have hle := depth_le_of_mem_entries (mem_map_of_mem (f := fun f => (f.1, f.2.toDatum)) hf)
      have hf : read m fuel f.2.toDatum = some f.2 := ih f hf (by omega)
      simp [hf]
    simp only [toDatum, read, choice?, fieldData_eq, Option.bind_eq_bind, Option.bind_some, Option.pure_def,
      hfields, ofFields_of_sorted hsorted]

end Value

theorem Value.ofDatum?_toDatum (h : v.WellFormed P) :
    ofDatum? m v.toDatum = some v := read_toDatum m h (Nat.le_refl _)

/-! ## Parameters, methods and operators -/

@[simp]
theorem Param.ofDatum?_toDatum : ofDatum? p.toDatum = some p := by
  simp [toDatum, ofDatum?, Datum.fields?, Datum.fieldOf, required, string?]

@[simp]
theorem Method.ofDatum?_toDatum (m : Method) : ofDatum? m.toDatum = some m := by
  obtain ⟨declaringType, name, genericArgs⟩ := m
  have hargs : (genericArgs.map Ty.toDatum).mapM (Ty.ofDatum? Expr.manner) = some genericArgs :=
    mapM_written fun t _ => t.ofDatum?_toDatum _
  cases genericArgs with
  | nil => simp [toDatum, ofDatum?, Datum.fields?, Datum.fieldOf, required, withDefault, string?]
  | cons t rest =>
    simp [toDatum, ofDatum?, Datum.fields?, Datum.fieldOf, required, withDefault, string?, Datum.listOf?,
      Datum.list?, -map_cons, hargs]

theorem BinaryOp.oneOf?_code (op : BinaryOp) : Datum.oneOf? m every code (.string op.code) = some op := by
  cases op <;> rfl

theorem UnaryOp.oneOf?_code (op : UnaryOp) : Datum.oneOf? m every code (.string op.code) = some op := by
  cases op <;> rfl

theorem ChildJoin.oneOf?_code (join : ChildJoin) :
    Datum.oneOf? m every code (.string join.code) = some join := by
  cases join <;> rfl

/-! ## Fields -/

namespace Datum

/-- The entries of the fields that are there. -/
def present (fields : List (String × Option Datum)) : List (String × Datum) :=
  fields.filterMap fun f => f.2.map (f.1, ·)

theorem mem_present {fields : List (String × Option Datum)} {x : String × Datum} :
    x ∈ present fields ↔ (x.1, some x.2) ∈ fields := by
  simp only [present, mem_filterMap, Option.map_eq_some_iff]
  constructor
  · rintro ⟨⟨name, field⟩, hf, d, rfl, rfl⟩
    exact hf
  · exact fun h => ⟨(x.1, some x.2), h, x.2, rfl, rfl⟩

theorem filter_name_eq_nil (h : ∀ x ∈ entries, x.1 ≠ name) :
    entries.filter (·.1 == name) = [] := by
  rw [filter_eq_nil_iff]
  intro x hx
  simpa using h x hx

/-- Reading known fields one after the other, with the entries of those read before in front. -/
theorem mapM_fieldOf_present {before : List (String × Datum)} {fields : List (String × Option Datum)}
    (hbefore : ∀ x ∈ before, x.1 ∉ fields.map (·.1)) (hnames : (fields.map (·.1)).Nodup) :
    (fields.map (·.1)).mapM (fieldOf (before ++ present fields)) = some (fields.map (·.2)) := by
  induction fields generalizing before with
  | nil => rfl
  | cons f rest ih =>
    obtain ⟨name, field⟩ := f
    rw [map_cons, nodup_cons] at hnames
    simp only [map_cons, mem_cons, not_or] at hbefore
    have hothers : ∀ x ∈ present rest, x.1 ≠ name := fun x hx h =>
      hnames.1 (h ▸ mem_map_of_mem (f := fun f => f.1) (mem_present.1 hx))
    have hsplit : present ((name, field) :: rest) = (field.map (name, ·)).toList ++ present rest := by
      cases field with
      | none => rfl
      | some d => rfl
    have hfield : fieldOf (before ++ present ((name, field) :: rest)) name = some field := by
      rw [fieldOf, hsplit, filter_append, filter_append,
        filter_name_eq_nil fun x hx => (hbefore x hx).1, filter_name_eq_nil hothers]
      cases field with
      | none => rfl
      | some d => simp
    have hrest : (rest.map (·.1)).mapM (fieldOf (before ++ present ((name, field) :: rest))) =
        some (rest.map (·.2)) := by
      rw [hsplit, ← append_assoc]
      refine ih (forall_mem_append.2 ⟨fun x hx => (hbefore x hx).2, fun x hx => ?_⟩) hnames.2
      obtain ⟨d, -, rfl⟩ := Option.map_eq_some_iff.1 (mem_toList.1 hx)
      exact hnames.1
    simp [hfield, hrest]

/-- The fields of a record that holds those that are there. -/
theorem fields?_present {fields : List (String × Option Datum)} (hnames : (fields.map (·.1)).Nodup) :
    fields? m (fields.map (·.1)) (.record (present fields)) = some (fields.map (·.2)) :=
  mapM_fieldOf_present (forall_mem_nil _) hnames

end Datum

/-! ## Expressions -/

namespace Expr

theorem toDatum_eq (e : Expr) : e.toDatum = nodeDatum e (e.children.map toDatum) := fold_eq _ e

/-- The name of the kind of a node in its written form. -/
def kind : Expr → String
  | call .. => "method_call"
  | member .. => "member"
  | binary .. => "binary"
  | unary .. => "unary"
  | conditional .. => "conditional"
  | constant .. => "constant"
  | captured .. => "variable"
  | parameter .. => "parameter"
  | lambda .. => "lambda"
  | construct .. => "new"
  | array .. => "new_array"
  | navigation .. => "navigation"
  | childJoin .. => "child_join"
  | inValues .. => "in_values"

/-- The written form of a named member. -/
def memberDatum (x : String × Expr) : Datum := .record [("member", .string x.1), ("value", x.2.toDatum)]

/-- The fields of a written node. Those of absent parts are left out. -/
def fields : Expr → List (String × Option Datum)
  | call method receiver args ty =>
    [("method", some method.toDatum), ("instance", receiver.map toDatum),
      ("args", some (.list (args.map toDatum))), ("ty", some ty.toDatum)]
  | member target name ty =>
    [("target", target.map toDatum), ("member", some (.string name)), ("ty", some ty.toDatum)]
  | binary op left right ty =>
    [("op", some (.string op.code)), ("left", some left.toDatum), ("right", some right.toDatum),
      ("ty", some ty.toDatum)]
  | unary op operand ty =>
    [("op", some (.string op.code)), ("operand", some operand.toDatum), ("ty", some ty.toDatum)]
  | conditional test ifTrue ifFalse ty =>
    [("test", some test.toDatum), ("if_true", some ifTrue.toDatum), ("if_false", some ifFalse.toDatum),
      ("ty", some ty.toDatum)]
  | constant value ty => [("value", some value.toDatum), ("ty", some ty.toDatum)]
  | captured name value ty =>
    [("name", some (.string name)), ("value", some value.toDatum), ("ty", some ty.toDatum)]
  | parameter p => [("name", some (.string p.name)), ("ty", some p.ty.toDatum)]
  | lambda params body => [("params", some (.list (params.map Param.toDatum))), ("body", some body.toDatum)]
  | construct ty members => [("ty", some ty.toDatum), ("members", some (.list (members.map memberDatum)))]
  | array element items => [("element", some element.toDatum), ("items", some (.list (items.map toDatum)))]
  | navigation source name ty =>
    [("source", some source.toDatum), ("navigation", some (.string name)), ("ty", some ty.toDatum)]
  | childJoin source child condition result join ty =>
    [("source", some source.toDatum), ("child", some child.toDatum), ("condition", condition.map toDatum),
      ("result", result.map toDatum), ("join", some (.string join.code)), ("ty", some ty.toDatum)]
  | inValues item values negated =>
    [("item", some item.toDatum), ("values", some values.toDatum), ("negated", some (.bool negated))]

theorem zip_memberDatum (members : List (String × Expr)) :
    ((members.map (·.1)).zip ((members.map (·.2)).map toDatum)).map
      (fun x => Datum.record [("member", .string x.1), ("value", x.2)]) = members.map memberDatum := by
  induction members with
  | nil => rfl
  | cons x rest ih => simp only [map_cons, zip_cons_cons, ih, memberDatum]

/-- A node is written as its kind and its fields. -/
theorem toDatum_eq_record (e : Expr) :
    e.toDatum = .record (("kind", .string e.kind) :: Datum.present e.fields) := by
  rw [toDatum_eq]
  cases e with
  | call _ receiver _ _ => cases receiver <;> rfl
  | member target _ _ => cases target <;> rfl
  | construct ty members => simp [nodeDatum, children, kind, fields, Datum.present, ← zip_memberDatum]
  | childJoin _ _ condition result _ _ => cases condition <;> cases result <;> rfl
  | _ => rfl

theorem kind_mem_kinds (e : Expr) : e.kind ∈ kinds := by
  cases e <;> simp [kind, kinds]

theorem nodup_fields (e : Expr) : ("kind" :: e.fields.map (·.1)).Nodup := by
  cases e <;> simp [fields]

theorem kindAndFields?_toDatum (nested : Bool) (e : Expr) :
    kindAndFields? nested e.toDatum = some (e.kind, .record (Datum.present e.fields)) := by
  have hnames := (nodup_cons.1 e.nodup_fields).1
  have hother : ∀ x ∈ Datum.present e.fields, x.1 ≠ "kind" := fun x hx h =>
    hnames (h ▸ mem_map_of_mem (f := fun f => f.1) (mem_present.1 hx))
  have hall : (Datum.present e.fields).filter (·.1 != "kind") = Datum.present e.fields := by
    rw [filter_eq_self]
    intro x hx
    simpa using hother x hx
  rw [toDatum_eq_record]
  simp only [kindAndFields?, filter_cons, filter_name_eq_nil hother, hall, kind?]
  simp [e.kind_mem_kinds]

/-! ### Reading nodes -/

theorem nullable_toDatum {o : Option Expr}
    (h : ∀ e ∈ o, part e.toDatum = some e) : nullable part (o.map toDatum) = some o := by
  cases o with
  | none => rfl
  | some e =>
    have he := h e rfl
    rw [toDatum_eq_record] at he
    simp [nullable, toDatum_eq_record, he]

theorem readMember_memberDatum {x : String × Expr} (h : part x.2.toDatum = some x.2) :
    readMember part (memberDatum x) = some x := by
  have hfields : Datum.fields? manner ["member", "value"] (memberDatum x) =
      some [some (.string x.1), some x.2.toDatum] :=
    @Datum.fields?_present manner [("member", some _), ("value", some _)] (by simp)
  simp [readMember, hfields, required, string?, h]

/-- The value of a constant or of a captured variable. -/
def value? : Expr → Option Value
  | constant v _ | captured _ v _ => some v
  | _ => none

/-- Data with the fields of a node are read as the node if its parts are read back. -/
theorem readNode_of_fields (hpart : ∀ c ∈ e.children, part c.toDatum = some c) (hvalue : ∀ v ∈ e.value?, v.WellFormed P)
    (hd : d.fields? manner (e.fields.map (·.1)) = some (e.fields.map (·.2))) : readNode part e.kind d = some e := by
  cases e with simp only [fields, map_cons, map_nil] at hd
  | call method receiver args ty =>
    simp only [children, forall_mem_append, mem_toList] at hpart
    simp [kind, readNode, hd, required, withDefault, nullable_toDatum hpart.1, listOf?_written hpart.2]
  | member target name ty =>
    simp only [children, mem_toList] at hpart
    simp [kind, readNode, hd, required, nullable_toDatum hpart, string?]
  | constant value _ | captured _ value _ =>
    simp [kind, readNode, hd, required, string?, Value.ofDatum?_toDatum _ (hvalue value rfl)]
  | parameter p =>
    simp [kind, readNode, Param.ofDatum?, hd, required, string?]
  | construct ty members =>
    have hmembers : ∀ x ∈ members, readMember part (memberDatum x) = some x := fun x hx =>
      readMember_memberDatum (hpart x.2 (mem_map_of_mem hx))
    simp [kind, readNode, hd, required, listOf?_written hmembers]
  | array element items =>
    have hitems : ∀ c ∈ items, part c.toDatum = some c := hpart
    simp [kind, readNode, hd, required, listOf?_written hitems]
  | childJoin source child condition result join ty =>
    simp only [children, forall_mem_cons, forall_mem_append, mem_toList] at hpart
    obtain ⟨hsource, hchild, hcondition, hresult⟩ := hpart
    simp [kind, readNode, hd, required, hsource, hchild, nullable_toDatum hcondition, nullable_toDatum hresult,
      ChildJoin.oneOf?_code]
  | binary | unary | conditional | lambda | navigation | inValues =>
    simp only [children, forall_mem_cons] at hpart
    simp [kind, readNode, hd, required, withDefault, hpart, string?, Datum.bool?, BinaryOp.oneOf?_code,
      UnaryOp.oneOf?_code, listOf?_written fun p _ => Param.ofDatum?_toDatum p]

theorem depth_memberDatum (x : String × Expr) : x.2.toDatum.depth ≤ (memberDatum x).depth := by
  simp only [memberDatum, Datum.depth, entriesDepth]
  omega

/-- A written part is no deeper than the field that it stands in. -/
theorem exists_field_of_mem_children (hc : c ∈ e.children) :
    ∃ d, some d ∈ e.fields.map (·.2) ∧ c.toDatum.depth ≤ d.depth := by
  have hself : some c.toDatum ∈ e.fields.map (·.2) → ∃ d, some d ∈ e.fields.map (·.2) ∧ c.toDatum.depth ≤ d.depth :=
    fun h => ⟨_, h, Nat.le_refl _⟩
  have hitems : ∀ {items : List Expr}, c ∈ items → c.toDatum.depth ≤ (Datum.list (items.map toDatum)).depth := by
    intro items hc
    exact Nat.le_succ_of_le (depth_le_of_mem_items (mem_map_of_mem hc))
  cases e with
  | call method receiver args ty =>
    simp only [children, mem_append, mem_toList] at hc
    rcases hc with rfl | hc
    · exact hself (by simp [fields])
    · exact ⟨.list (args.map toDatum), by simp [fields], hitems hc⟩
  | member target name ty =>
    obtain rfl := mem_toList.1 hc
    exact hself (by simp [fields])
  | construct ty members =>
    obtain ⟨x, hx, rfl⟩ := mem_map.1 hc
    refine ⟨.list (members.map memberDatum), by simp [fields], ?_⟩
    exact Nat.le_succ_of_le (Nat.le_trans (depth_memberDatum x) (depth_le_of_mem_items (mem_map_of_mem hx)))
  | array element items => exact ⟨.list (items.map toDatum), by simp [fields], hitems hc⟩
  | childJoin source child condition result join ty =>
    simp only [children, mem_cons, mem_append, mem_toList] at hc
    refine hself ?_
    rcases hc with rfl | rfl | rfl | rfl <;> simp [fields]
  | binary _ _ _ _ | unary _ _ _ | conditional _ _ _ _ | lambda _ _ | navigation _ _ _ | inValues _ _ _ =>
    simp only [children, mem_cons, not_mem_nil, or_false] at hc
    refine hself ?_
    simp only [fields, map_cons, map_nil, mem_cons, Option.some.injEq]
    grind
  | constant _ _ | captured _ _ _ | parameter _ => cases hc

theorem depth_lt_of_mem_children (hc : c ∈ e.children) : c.toDatum.depth < e.toDatum.depth := by
  obtain ⟨d, hd, hle⟩ := exists_field_of_mem_children hc
  obtain ⟨⟨name, _⟩, hd, rfl⟩ := mem_map.1 hd
  have hentry : (name, d) ∈ ("kind", .string e.kind) :: Datum.present e.fields :=
    mem_cons_of_mem _ (mem_present.2 hd)
  have hdepth := depth_le_of_mem_entries hentry
  rw [toDatum_eq_record e, Datum.depth]
  omega

/-- All values in an expression are well-formed. -/
def WellFormed (P : Float → Prop) (e : Expr) : Prop := ∀ x ∈ e.walk, ∀ v ∈ x.value?, v.WellFormed P

theorem read_toDatum (he : e.WellFormed P) (hfuel : e.toDatum.depth ≤ fuel) (nested : Bool) :
    read fuel nested e.toDatum = some e := by
  induction e using induction_on_children generalizing fuel nested with
  | hP e ih =>
    obtain ⟨hvalue, hchildren⟩ := forall_mem_walk.1 he
    have hpos := e.toDatum.depth_pos
    obtain ⟨fuel, rfl⟩ : ∃ k, fuel = k + 1 := ⟨fuel - 1, by omega⟩
    have hpart : ∀ c ∈ e.children, read fuel true c.toDatum = some c := fun c hc => by
      have hlt := depth_lt_of_mem_children hc
      exact ih c hc (hchildren c hc) (by omega) true
    rw [read, kindAndFields?_toDatum]
    exact readNode_of_fields hpart hvalue (fields?_present manner (nodup_cons.1 e.nodup_fields).2)

end Expr

/-! ## JSON texts -/

namespace Json

variable {float : Float → String}

theorem readable_ty : Readable float t.toDatum := by
  induction t with
  | queryable e ih | enumerable e ih | nullable e ih | array e ih => exact .record (by simpa using ih)
  | grouping k e ihk ihe => exact .record (by simpa using Readable.list (by simpa using ⟨ihk, ihe⟩))
  | entity name | object name => exact .record (by simpa using Readable.string name)
  | _ => exact .string _

theorem readable_param : Readable float p.toDatum :=
  .record (by simpa using ⟨Readable.string p.name, readable_ty p.ty⟩)

theorem readable_method (m : Method) : Readable float m.toDatum := by
  refine .record (forall_mem_append.2 ⟨?_, ?_⟩)
  · simpa using ⟨Readable.string m.declaringType, Readable.string m.name⟩
  · split
    · exact forall_mem_nil _
    · exact forall_mem_singleton.2 (.list (forall_mem_map.2 fun t _ => readable_ty t))

theorem readable_value (hfloat : ∀ x, P x → ReadsBack float x) (hv : v.WellFormed P) :
    Readable float v.toDatum := by
  induction hv with
  | null => exact .string _
  | bool b => exact .record (forall_mem_singleton.2 (.bool b))
  | int hn => exact .record (forall_mem_singleton.2 (.int hn))
  | float hx => exact .record (forall_mem_singleton.2 (.float (hfloat _ hx)))
  | string s => exact .record (forall_mem_singleton.2 (.string s))
  | dateTime _ _ => exact .record (forall_mem_singleton.2 (.string _))
  | list _ ih =>
    refine .record (forall_mem_singleton.2 (.list ?_))
    rw [Value.itemData_eq, forall_mem_map]
    exact ih
  | record _ _ ih =>
    refine .record (forall_mem_singleton.2 (.record ?_))
    rw [Value.fieldData_eq, forall_mem_map]
    exact ih
  | table entity => exact .record (forall_mem_singleton.2 (.string entity))

/-- Every field of a written node can be read back if its parts can. -/
theorem readable_fields (hparts : ∀ c ∈ e.children, Readable float c.toDatum)
    (hvalue : ∀ v ∈ e.value?, Readable float v.toDatum) : ∀ f ∈ e.fields, ∀ d ∈ f.2, Readable float d := by
  have hitems : ∀ {α : Type} {write : α → Datum} {items : List α}, (∀ a ∈ items, Readable float (write a)) →
      Readable float (.list (items.map write)) := fun h => .list (forall_mem_map.2 h)
  have hmember : ∀ x : String × Expr, Readable float x.2.toDatum → Readable float (Expr.memberDatum x) :=
    fun x hx => .record (by simpa using ⟨Readable.string x.1, hx⟩)
  cases e with
  | call method receiver args ty =>
    simp only [Expr.children, forall_mem_append, mem_toList] at hparts
    simpa [Expr.fields, readable_ty, readable_method] using ⟨hparts.1, hitems hparts.2⟩
  | constant value ty => simpa [Expr.fields, readable_ty] using hvalue value rfl
  | captured name value ty => simpa [Expr.fields, Readable.string, readable_ty] using hvalue value rfl
  | parameter p => simp [Expr.fields, Readable.string, readable_ty]
  | lambda params body => simpa [Expr.fields, Expr.children, hitems fun p _ => readable_param p] using hparts
  | construct ty members =>
    simpa [Expr.fields, readable_ty] using hitems fun x hx => hmember x (hparts x.2 (mem_map_of_mem hx))
  | array element items =>
    rw [Expr.children] at hparts
    simpa [Expr.fields, readable_ty] using hitems hparts
  | member | binary | unary | conditional | navigation | childJoin | inValues =>
    simpa [Expr.fields, Expr.children, Readable.string, Readable.bool, readable_ty, or_imp, forall_and] using hparts

theorem readable_expr (hfloat : ∀ x, P x → ReadsBack float x) (he : e.WellFormed P) :
    Readable float e.toDatum := by
  induction e using Expr.induction_on_children with
  | hP e ih =>
    obtain ⟨hvalue, hchildren⟩ := Expr.forall_mem_walk.1 he
    rw [Expr.toDatum_eq_record]
    refine .record (forall_mem_cons.2 ⟨.string _, fun x hx => ?_⟩)
    exact readable_fields (fun c hc => ih c hc (hchildren c hc)) (fun v hv => readable_value hfloat (hvalue v hv)) _
      (mem_present.1 hx) x.2 rfl

end Json

/-- Every expression whose values are well-formed is read back from its written form. It is read back from
its JSON text too, however floats are written, as long as the text of every float in it is read as that
float. The reader `Json.parse?` sets no limit to the depth of a text.

**Proof sketch.** A written node names its fields, and the reader of its kind finds those that are there and
takes the others for absent. Parts are less deep than the node, so the depth of the data lets the reader go
down to all of them. -/
theorem expr_read_back (P : Float → Prop) (e : Expr) (he : e.WellFormed P) : Expr.ofDatum? e.toDatum = some e ∧
    ∀ float : Float → String, (∀ x, P x → Json.ReadsBack float x) →
      Expr.ofJson? (Json.write float e.toDatum) = some e := by
  have hdatum : Expr.ofDatum? e.toDatum = some e := Expr.read_toDatum he (Nat.le_refl _) false
  refine ⟨hdatum, fun float hfloat => ?_⟩
  rw [Expr.ofJson?, Json.parse?_write (Json.readable_expr hfloat he)]
  exact hdatum

namespace Sample

/-- Students and courses side by side, each pair with whether the day of birth is none of some captured
days. The join has a result but no condition. -/
def birthdaysApart : Expr :=
  let student : Param := ⟨"s", .entity "Student"⟩
  let days : Value := .record [("first", .dateTime ⟨2024, 2, 29, 10, 30, 0, 500000000⟩), ("spare", .list [.int (-5)])]
  .childJoin (.constant (.table "Student") (.queryable (.entity "Student")))
    (.constant (.table "Course") (.queryable (.entity "Course"))) none
    (some (.lambda [student, ⟨"c", .unknown⟩]
      (.inValues (.member (some (.parameter student)) "Born" .dateTime) (.captured "days" days .unknown) true)))
    .cross (.queryable .unknown)

theorem birthdaysApart_wellFormed : birthdaysApart.WellFormed fun _ => False := by
  have hdays : Value.WellFormed (fun _ => False) (.record [("first", .dateTime ⟨2024, 2, 29, 10, 30, 0, 500000000⟩),
      ("spare", .list [.int (-5)])]) := by
    refine .record (by decide) (forall_mem_cons.2 ⟨.dateTime (by decide) (by decide), ?_⟩)
    exact forall_mem_singleton.2 (.list (forall_mem_singleton.2 (.int (by decide))))
  simp [Expr.WellFormed, birthdaysApart, Expr.walk, Expr.fold, Expr.foldOption, Expr.value?, hdays,
    Value.WellFormed.table]

/-- It holds no floats, so that they are read back is no assumption on how they are written. -/
theorem birthdaysApart_read_back : birthdaysApart.WellFormed (fun _ => False) ∧
    Expr.ofDatum? birthdaysApart.toDatum = some birthdaysApart ∧
    Expr.ofJson? (Json.write (fun _ => "") birthdaysApart.toDatum) = some birthdaysApart := by
  obtain ⟨hdatum, hjson⟩ := expr_read_back _ _ birthdaysApart_wellFormed
  exact ⟨birthdaysApart_wellFormed, hdatum, hjson _ fun _ h => h.elim⟩

end Sample

end QueryLowering
