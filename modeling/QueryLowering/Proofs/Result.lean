import Mathlib.Data.List.Forall2
import QueryLowering.Error

/-!
# Results that are there

What it means that a step which can fail has a result, and for what causes it may have none. Each lemma
takes one way of putting steps together apart, so that a computation can be followed from its result
back to its parts.

## Main results

* `Result.bind_eq_ok`: a sequence of steps has a result if and only if its parts have.
* `Result.mapM_eq_ok`: a step for each item of a list.
* `Result.foldlM_induction`: steps that take the results of those before them.
* `Result.failsBy_bind`, `Result.failsBy_orThrow`, …: a sequence of steps fails for a cause of its steps.
-/

namespace QueryLowering

open List

variable {e : Error} {E : Error → Prop}

section

variable {α β : Type} [BEq α] [LawfulBEq α] {l : List (α × β)}

theorem mem_of_lookup {a : α} {b : β} (h : l.lookup a = some b) : (a, b) ∈ l := by
  obtain ⟨before, after, rfl, -⟩ := lookup_eq_some_iff.1 h
  simp

theorem exists_lookup {entry : α × β} (h : entry ∈ l) : ∃ b, l.lookup entry.1 = some b :=
  Option.isSome_iff_exists.1 (lookup_isSome_iff.2 ⟨entry, h, beq_self_eq_true _⟩)

end

namespace Result

variable {α β : Type}

@[simp]
theorem bind_eq_ok {x : Result α} {f : α → Result β} {b : β} : x >>= f = .ok b ↔ ∃ a, x = .ok a ∧ f a = .ok b := by
  cases x <;> simp [bind, Except.bind]

@[simp]
theorem pure_eq_ok {a b : α} : (pure a : Result α) = .ok b ↔ a = b := by
  simp [pure, Except.pure]

/-- A result that satisfies a condition, if a run finds it so. -/
theorem exists_ok {x : Result α} {P : α → Prop} [DecidablePred P] (h : (x.toOption.any fun a => decide (P a)) = true) :
    ∃ a, x = .ok a ∧ P a := by
  cases x with
  | error e => cases h
  | ok a => exact ⟨a, rfl, of_decide_eq_true h⟩

@[simp]
theorem throw_ne_ok {b : α} : (throw e : Result α) ≠ .ok b := by
  simp [throw, throwThe, MonadExceptOf.throw]

@[simp]
theorem breach_ne_ok {p : Breach} {b : α} : (breach p : Result α) ≠ .ok b := throw_ne_ok

@[simp]
theorem orThrow_eq_ok {o : Option α} {a : α} : (orThrow e o : Result α) = .ok a ↔ o = some a := by
  cases o <;> simp [orThrow]

/-- A step for each item of a list has a result if every step has one; the results stand in the
order of the items. -/
theorem mapM_eq_ok {f : α → Result β} {xs : List α} {ys : List β} :
    xs.mapM f = .ok ys ↔ List.Forall₂ (fun x y => f x = .ok y) xs ys := by
  induction xs generalizing ys with
  | nil =>
    rw [mapM_nil, pure_eq_ok, forall₂_nil_left_iff]
    exact eq_comm
  | cons x rest ih =>
    simp only [mapM_cons, bind_eq_ok, pure_eq_ok, ih, forall₂_cons_left_iff]
    constructor
    · rintro ⟨y, hy, zs, hzs, rfl⟩
      exact ⟨y, zs, hy, hzs, rfl⟩
    · rintro ⟨y, zs, hy, hzs, rfl⟩
      exact ⟨y, hy, zs, hzs, rfl⟩

/-- Steps that have a result each have a list of results. -/
theorem exists_mapM {f : α → Result β} {xs : List α} (h : ∀ x ∈ xs, ∃ y, f x = .ok y) : ∃ ys, xs.mapM f = .ok ys := by
  induction xs with
  | nil => exact ⟨[], rfl⟩
  | cons x rest ih =>
    rw [forall_mem_cons] at h
    obtain ⟨⟨y, hy⟩, hrest⟩ := h
    obtain ⟨ys, hys⟩ := ih hrest
    exact ⟨y :: ys, mapM_eq_ok.2 (.cons hy (mapM_eq_ok.1 hys))⟩

/-- What holds of the first value and is kept by every step holds of the last value. -/
theorem foldlM_induction {f : β → α → Result β} {xs : List α} {b c : β} {P : β → Prop}
    (hc : xs.foldlM f b = .ok c) (hb : P b) (step : ∀ x ∈ xs, ∀ b c, P b → f b x = .ok c → P c) : P c := by
  induction xs generalizing b with
  | nil =>
    rw [foldlM_nil, pure_eq_ok] at hc
    exact hc ▸ hb
  | cons x rest ih =>
    rw [foldlM_cons, bind_eq_ok] at hc
    obtain ⟨b', hb', hc⟩ := hc
    exact ih hc (step x (by simp) b b' hb hb') fun y hy => step y (by simp [hy])

/-! ## Causes of failure -/

section

variable {P : Error → Prop}

/-- A result that is there, or that is missing for a cause of some kind. -/
def FailsBy (P : Error → Prop) (r : Result α) : Prop := ∀ e, r = .error e → P e

@[simp]
theorem failsBy_ok {a : α} : FailsBy P (.ok a) := by
  intro e he
  cases he

@[simp]
theorem failsBy_error : FailsBy P (.error e : Result α) ↔ P e := by
  simp [FailsBy]

@[simp]
theorem failsBy_pure {a : α} : FailsBy P (pure a) := failsBy_ok

@[simp]
theorem failsBy_throw : FailsBy P (throw e : Result α) ↔ P e := failsBy_error

@[simp]
theorem failsBy_breach {b : Breach} : FailsBy P (breach b : Result α) ↔ P (.invalidState b) := failsBy_error

@[simp]
theorem failsBy_orThrow {o : Option α} : FailsBy P (orThrow e o : Result α) ↔ (o = none → P e) := by
  cases o <;> simp [orThrow]

/-- A sequence of steps fails for a cause of its steps. -/
@[simp]
theorem failsBy_bind {x : Result α} {f : α → Result β} :
    FailsBy P (x >>= f) ↔ FailsBy P x ∧ ∀ a, x = .ok a → FailsBy P (f a) := by
  cases x with
  | error e => simp [bind, Except.bind]
  | ok a => simp [bind, Except.bind]

@[simp]
theorem failsBy_map {x : Result α} {f : α → β} : FailsBy P (f <$> x) ↔ FailsBy P x := by
  rw [map_eq_pure_bind, failsBy_bind]
  simp

end

/-! ## Results and causes of failure together -/

section

variable {P : α → Prop} {Q : β → Prop} {x : Result α}

/-- A result that satisfies a condition, or that is missing for a cause of some kind. -/
def Ensures (E : Error → Prop) (P : α → Prop) : Result α → Prop
  | .ok a => P a
  | .error e => E e

theorem Ensures.of_eq_ok (h : Ensures E P x) {a : α} (hx : x = .ok a) : P a := by
  subst hx
  exact h

theorem Ensures.mono {P' : α → Prop} (h : Ensures E P x) (hP : ∀ a, P a → P' a) : Ensures E P' x := by
  cases x with
  | error e => exact h
  | ok a => exact hP a h

theorem Ensures.and_eq_ok (h : Ensures E P x) : Ensures E (fun a => x = .ok a ∧ P a) x := by
  cases x with
  | error e => exact h
  | ok a => exact ⟨rfl, h⟩

theorem Ensures.failsBy (h : Ensures E P x) : FailsBy E x := by
  rintro e rfl
  exact h

theorem ensures_pure {a : α} (h : P a) : Ensures E P (pure a) := h

theorem ensures_throw (h : E e) : Ensures E P (throw e) := h

theorem ensures_orThrow {o : Option α} (ho : ∀ a ∈ o, P a) (he : E e) : Ensures E P (orThrow e o) := by
  cases o with
  | none => exact he
  | some a => exact ho a rfl

/-- What a first step ensures is what the next one may rely on. -/
theorem Ensures.bind (hx : Ensures E P x) {f : α → Result β} (hf : ∀ a, P a → Ensures E Q (f a)) :
    Ensures E Q (x >>= f) := by
  cases x with
  | error e => exact hx
  | ok a => exact hf a hx

theorem Ensures.andThen (hx : Ensures E P x) {f : α → β} (hf : ∀ a, P a → Q (f a)) : Ensures E Q (do return f (← x)) :=
  hx.bind hf

theorem ensures_mapM {f : α → Result β} {xs : List α} (h : ∀ x ∈ xs, Ensures E Q (f x)) :
    Ensures E (fun ys => ∀ y ∈ ys, Q y) (xs.mapM f) := by
  induction xs with
  | nil => exact forall_mem_nil _
  | cons x rest ih =>
    rw [forall_mem_cons] at h
    rw [mapM_cons]
    exact h.1.bind fun y hy => (ih h.2).andThen fun ys hys => forall_mem_cons.2 ⟨hy, hys⟩

theorem ensures_foldlM {f : β → α → Result β} {xs : List α} {b : β} (hb : Q b)
    (h : ∀ b, Q b → ∀ x ∈ xs, Ensures E Q (f b x)) : Ensures E Q (xs.foldlM f b) := by
  induction xs generalizing b with
  | nil => exact hb
  | cons x rest ih =>
    simp only [forall_mem_cons] at h
    rw [foldlM_cons]
    exact (h b hb).1.bind fun c hc => ih hc fun c hc => (h c hc).2

end

end Result

end QueryLowering
