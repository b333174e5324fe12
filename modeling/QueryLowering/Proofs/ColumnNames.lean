import Mathlib.Data.List.Nodup
import Mathlib.Data.List.Perm.Subperm
import QueryLowering.Proofs.Result
import QueryLowering.Scope.Wrap

/-!
# The names of output columns

Every column of a closed select has a name of its own. A column asks for a name, and if another column has it then a
number is put behind it: the first one from two on that makes a name which no column before has. Such a name can be
what a later column asks for, so the search looks at all names in use, and not at how often a name was asked for.

## Main results

* `Sql.isFirstFree_freshName`: the search ends, at the first name that is free.
* `Sql.columns_named_apart`: the names of the output columns of a list of values.
-/

namespace QueryLowering

open List

namespace Sql

variable {used : List String} {base name : String} {leaves : List (Path × Node)} {c : OutputColumn}

/-- The names that a column can get that asks for one, in the order in which they are tried. -/
def candidate (base : String) : Nat → String
  | 0 => base
  | k + 1 => base ++ toString (k + 2)

/-- A name is the first candidate that is not in use. -/
def IsFirstFree (used : List String) (base name : String) : Prop :=
  ∃ k, name = candidate base k ∧ name ∉ used ∧ ∀ j < k, candidate base j ∈ used

theorem IsFirstFree.eq_base (h : IsFirstFree used base name) (hbase : base ∉ used) : name = base := by
  obtain ⟨k, rfl, -, hbefore⟩ := h
  cases k with
  | zero => rfl
  | succ k => exact absurd (hbefore 0 k.succ_pos) hbase

/-- A search among enough names ends at the first one that is not in use. -/
theorem isFirstFree_numberedName {fuel i k : Nat} (hi : i ≤ k) (hk : k ≤ i + fuel)
    (hfree : candidate base (k + 1) ∉ used) (hbefore : ∀ j < i + 1, candidate base j ∈ used) :
    IsFirstFree used base (numberedName used base fuel (i + 2)) := by
  induction fuel generalizing i with
  | zero =>
    obtain rfl : k = i := by omega
    exact ⟨k + 1, rfl, hfree, hbefore⟩
  | succ fuel ih =>
    rw [numberedName]
    split
    · next hused =>
      have hmem : candidate base (i + 1) ∈ used := contains_iff_mem.1 hused
      have hne : i ≠ k := by
        rintro rfl
        exact hfree hmem
      refine ih (by omega) (by omega) fun j hj => ?_
      rcases Nat.lt_succ_iff_lt_or_eq.1 hj with hj | rfl
      · exact hbefore j hj
      · exact hmem
    · next hused => exact ⟨i + 1, rfl, fun hmem => hused (contains_iff_mem.2 hmem), hbefore⟩

theorem eq_of_toString_eq {n k : Nat} (h : toString n = toString k) : n = k := by
  rw [Nat.toString_eq_ofList_toDigits, Nat.toString_eq_ofList_toDigits, String.ofList_inj] at h
  rw [← Nat.ofDigitChars_ten_toDigits (n := n), h, Nat.ofDigitChars_ten_toDigits]

/-- Of more numbered names than there are names in use one is free. -/
theorem exists_candidate_notMem (used : List String) (base : String) :
    ∃ k ≤ used.length, candidate base (k + 1) ∉ used := by
  by_contra hnone
  simp only [not_exists, not_and, not_not] at hnone
  have hnodup : ((List.range (used.length + 1)).map fun i => candidate base (i + 1)).Nodup := by
    refine List.Nodup.map (fun i j hij => ?_) nodup_range
    have h := eq_of_toString_eq ((String.append_right_inj base).1 hij)
    omega
  have hsubset : ((List.range (used.length + 1)).map fun i => candidate base (i + 1)) ⊆ used := by
    intro name hname
    obtain ⟨i, hi, rfl⟩ := mem_map.1 hname
    rw [mem_range] at hi
    exact hnone i (by omega)
  have hlength := (subperm_of_subset hnodup hsubset).length_le
  rw [length_map, length_range] at hlength
  omega

/-- The name that a column gets is the first candidate that is not in use, and there is one. -/
theorem isFirstFree_freshName (used : List String) (base : String) : IsFirstFree used base (freshName used base) := by
  unfold freshName
  split
  · next hused =>
    obtain ⟨k, hk, hfree⟩ := exists_candidate_notMem used base
    refine isFirstFree_numberedName (i := 0) k.zero_le (by omega) hfree fun j hj => ?_
    obtain rfl : j = 0 := by omega
    exact contains_iff_mem.1 hused
  · next hused => exact ⟨0, rfl, fun hmem => hused (contains_iff_mem.2 hmem), by simp⟩

/-! ## Columns one after the other -/

/-- Each column gets the first free name beside the names in use and those of the columns before it. -/
theorem isFirstFree_of_nameColumnsFrom {before after : List OutputColumn}
    (h : nameColumnsFrom used leaves = before ++ c :: after) :
    IsFirstFree ((before.map (·.name)).reverse ++ used) (baseName c.path c.expr) c.name := by
  induction leaves generalizing used before with
  | nil => simp [nameColumnsFrom] at h
  | cons leaf rest ih =>
    obtain ⟨path, expr⟩ := leaf
    cases before with
    | nil =>
      obtain ⟨rfl, -⟩ := List.cons.inj h
      exact isFirstFree_freshName used _
    | cons first before =>
      obtain ⟨rfl, hrest⟩ := List.cons.inj h
      simpa using ih hrest

theorem map_nameColumnsFrom (used : List String) (leaves : List (Path × Node)) :
    (nameColumnsFrom used leaves).map (fun c => (c.path, c.expr)) = leaves := by
  induction leaves generalizing used with
  | nil => rfl
  | cons leaf rest ih =>
    obtain ⟨path, expr⟩ := leaf
    rw [nameColumnsFrom, map_cons, ih]

theorem mem_nameColumnsFrom (h : c ∈ nameColumnsFrom used leaves) : (c.path, c.expr) ∈ leaves := by
  rw [← map_nameColumnsFrom used leaves]
  exact mem_map_of_mem h

theorem nodup_nameColumnsFrom (used : List String) (leaves : List (Path × Node)) :
    ((nameColumnsFrom used leaves).map (·.name)).Nodup ∧ ∀ c ∈ nameColumnsFrom used leaves, c.name ∉ used := by
  induction leaves generalizing used with
  | nil => exact ⟨nodup_nil, forall_mem_nil _⟩
  | cons leaf rest ih =>
    obtain ⟨path, expr⟩ := leaf
    obtain ⟨hnodup, hfresh⟩ := ih (freshName used (baseName path expr) :: used)
    obtain ⟨-, -, hname, -⟩ := isFirstFree_freshName used (baseName path expr)
    refine ⟨nodup_cons.2 ⟨fun hmem => ?_, hnodup⟩, forall_mem_cons.2 ⟨hname, fun c hc hused => ?_⟩⟩
    · obtain ⟨c, hc, hname⟩ := mem_map.1 hmem
      exact hfresh c hc (hname ▸ mem_cons_self)
    · exact hfresh c hc (mem_cons_of_mem _ hused)

/-- The output columns of a list of values are one column for each value, in the same order and with different names.
A column has the first free name beside the columns before it, so it keeps the name that it asks for unless a column
before has it. The columns of every closed select are such. -/
theorem columns_named_apart (leaves : List (Path × Node)) :
    (nameColumns leaves).map (fun c => (c.path, c.expr)) = leaves ∧ ((nameColumns leaves).map (·.name)).Nodup ∧
    (∀ before c after, nameColumns leaves = before ++ c :: after →
      IsFirstFree (before.map (·.name)) (baseName c.path c.expr) c.name ∧
      (baseName c.path c.expr ∉ before.map (·.name) → c.name = baseName c.path c.expr)) ∧
    ∀ (schema : Schema) (s : Select) (sc after : Scope) (d : Derived), s.close schema sc = .ok (d, after) →
      (d.columns.map (·.name)).Nodup := by
  refine ⟨map_nameColumnsFrom [] leaves, (nodup_nameColumnsFrom [] leaves).1, fun before c after h => ?_, ?_⟩
  · have hfirst : IsFirstFree (before.map (·.name)) (baseName c.path c.expr) c.name := by
      simpa [IsFirstFree] using isFirstFree_of_nameColumnsFrom h
    exact ⟨hfirst, hfirst.eq_base⟩
  · intro schema s sc after d hd
    simp only [Select.close, Result.bind_eq_ok, Result.pure_eq_ok, Prod.mk.injEq] at hd
    obtain ⟨inner, -, rfl, -⟩ := hd
    exact (nodup_nameColumnsFrom [] inner).1

/-- Values whose columns ask for names that are taken, by other columns or with a number. -/
def Sample.crowded : List (Path × Node) :=
  [["A"], ["A"], ["A2"], ["A_B"], ["A", "B"]].map fun path => (path, .placeholder)

/-- A name that is taken gets a number, and one more if that is taken. -/
theorem Sample.crowded_named_apart : (nameColumns crowded).map (·.name) = ["A", "A2", "A22", "A_B", "A_B2"] ∧
      ((nameColumns crowded).map (·.name)).Nodup ∧ IsFirstFree ["A", "A2"] "A2" "A22" :=
  ⟨by decide +kernel, (columns_named_apart crowded).2.1,
    ((columns_named_apart crowded).2.2.1 [⟨["A"], "A", .placeholder⟩, ⟨["A"], "A2", .placeholder⟩]
      ⟨["A2"], "A22", .placeholder⟩ _ (by rfl)).1⟩

end Sql

end QueryLowering
