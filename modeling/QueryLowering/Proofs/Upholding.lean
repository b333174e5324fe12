import QueryLowering.Proofs.Regimes

/-!
# Steps that uphold a condition

Every step of the lowering keeps a condition that goes along with the ways in which queries are made, whether the step
succeeds or fails, and what is known only grows. A value that a step has satisfies the condition together with what
is known after it.

However a step ends, the frames and the names of the parameters are those from before. The lent selects are a stack:
a step leaves those that are there, and adds at most navigations to them. No step fails because of the stack.

Of the context, the frames count only where a navigation asks whether it is the collection of a `SelectMany`. So a
step is compared with a step from a context that differs in its frames only: both fail, or both succeed and change the
context alike. The two steps may be of two expressions between which the lowering sees no difference.

What an update or a deletion is depends on the call that asks for it. So nothing is said here of what these are, only
of what they leave alone.

## Main results

* `Lower.Runs.bind`, `Lower.Runs.withFrame`, …: the ways of putting steps together.
* `Lower.upholds_closeQuery`, `Lower.upholds_navigate`, `Lower.upholds_recursiveUnion`, …: the steps on queries.
-/

namespace QueryLowering

open Sql

/-- The tickets of the lent selects, the latest one first. -/
def Context.tickets (cx : Context) : List Ticket := cx.lent.map (·.1)

/-- The names of the parameters, from the outermost to the innermost. -/
def Scope.names (sc : Scope) : List String := sc.params.map (·.1)

/-- Two results are both there and related, or both missing for causes that have nothing to do with the lent
selects. -/
def Result.Match {α β : Type} (Q : α → β → Prop) : Result α → Result β → Prop
  | .ok a, .ok b => Q a b
  | .error e, .error e' => ¬ e.OfLending ∧ ¬ e'.OfLending
  | _, _ => False

namespace Lower

variable {α β γ δ : Type} {R : Regime} {F G : List Frame → List Frame → Prop} {w : R.World} {cx : Context}

/-- What a step makes of a context, and another step of the context with other frames. -/
structure Outcome (R : Regime) (w : R.World) (cx : Context) (others : List Frame)
    (Q : R.World → Context → α → β → Prop) (here : Result α × Context) (there : Result β × Context) : Prop where
  frames : here.2.frames = cx.frames
  names : here.2.scope.names = cx.scope.names
  alike : there.2 = { here.2 with frames := others }
  upheld : ∃ w', R.Grows w w' ∧ here.2.Upheld R w' ∧ Result.Match (Q w' here.2) here.1 there.1

/-- From a context that satisfies the condition, a step keeps it, and so does another step from related frames. The
results are related together with what is known by then. -/
def Runs (R : Regime) (F : List Frame → List Frame → Prop) (w : R.World) (cx : Context) (x : Lower α) (y : Lower β)
    (Q : R.World → Context → α → β → Prop) : Prop := cx.Upheld R w → ∀ frames, F cx.frames frames →
    Outcome R w cx frames Q (x.exec R.watch.schema cx) (y.exec R.watch.schema { cx with frames := frames })

/-- Two steps have the same result and keep the lent selects. -/
abbrev Agree (R : Regime) (F : List Frame → List Frame → Prop) (w : R.World) (cx : Context) (x y : Lower α)
    (Q : R.World → α → Prop) : Prop := Runs R F w cx x y fun w' cx' a b => a = b ∧ R.Kept cx.lent cx'.lent ∧ Q w' a

/-- Two steps have the same result and leave the context as it is. -/
abbrev Same (R : Regime) (F : List Frame → List Frame → Prop) (w : R.World) (cx : Context) (x y : Lower α)
    (Q : α → Prop) : Prop := Runs R F w cx x y fun w' cx' a b => a = b ∧ w' = w ∧ cx' = cx ∧ Q a

/-- A step keeps the condition and the lent selects. -/
abbrev Upholds (R : Regime) (F : List Frame → List Frame → Prop) (w : R.World) (cx : Context) (x : Lower α)
    (Q : R.World → α → Prop) : Prop := Agree R F w cx x x Q

/-- A step leaves the context as it is. -/
abbrev Retains (R : Regime) (F : List Frame → List Frame → Prop) (w : R.World) (cx : Context) (x : Lower α)
    (Q : α → Prop) : Prop := Same R F w cx x x Q

namespace Runs

variable {x : Lower α} {y : Lower β} {Q Q' : R.World → Context → α → β → Prop}

/-- What follows for the results from how the step has come to them. -/
theorem imp (h : Runs R F w cx x y Q) (hQ : ∀ w' cx' a b, cx.Upheld R w → R.Grows w w' →
    Yields R.watch.schema x cx a cx' → Q w' cx' a b → Q' w' cx' a b) : Runs R F w cx x y Q' := by
  intro hcx frames hF
  obtain ⟨hframes, hnames, halike, w', hgrows, hupheld, hmatch⟩ := h hcx frames hF
  refine ⟨hframes, hnames, halike, w', hgrows, hupheld, ?_⟩
  unfold Result.Match at hmatch ⊢
  split at hmatch
  · next hok _ => exact hQ _ _ _ _ hcx hgrows (Prod.ext hok rfl) hmatch
  · exact hmatch
  · exact hmatch

theorem mono (h : Runs R F w cx x y Q) (hQ : ∀ w' cx' a b, R.Grows w w' → Q w' cx' a b → Q' w' cx' a b) :
    Runs R F w cx x y Q' := h.imp fun w' cx' a b _ hgrows _ => hQ w' cx' a b hgrows

theorem anti (h : Runs R F w cx x y Q) (hGF : ∀ f f', G f f' → F f f') : Runs R G w cx x y Q :=
  fun hcx frames hG => h hcx frames (hGF _ _ hG)

/-- What a step that succeeds leaves. -/
theorem of_yields (h : Runs R F w cx x y Q) (hcx : cx.Upheld R w) {frames : List Frame} (hF : F cx.frames frames)
    {a : α} {cx' : Context} (hy : Yields R.watch.schema x cx a cx') : cx'.frames = cx.frames ∧
      cx'.scope.names = cx.scope.names ∧ ∃ w' b, R.Grows w w' ∧ cx'.Upheld R w' ∧ Q w' cx' a b := by
  obtain ⟨hframes, hnames, -, w', hgrows, hupheld, hmatch⟩ := h hcx frames hF
  rw [hy] at hframes hnames hupheld hmatch
  unfold Result.Match at hmatch
  split at hmatch
  · next hok _ =>
    obtain rfl := Except.ok.inj hok
    exact ⟨hframes, hnames, w', _, hgrows, hupheld, hmatch⟩
  · next hok _ => cases hok
  · exact hmatch.elim

variable [R.Lawful]

theorem pure {a : α} {b : β} (h : Q w cx a b) : Runs R F w cx (pure a) (pure b) Q :=
  fun hcx _ _ => ⟨rfl, rfl, rfl, w, Regime.Lawful.refl w, hcx, h⟩

theorem throw {e e' : Error} (he : ¬ e.OfLending ∧ ¬ e'.OfLending) :
    Runs R F w cx (throw e : Lower α) (throw e' : Lower β) Q :=
  fun hcx _ _ => ⟨rfl, rfl, rfl, w, Regime.Lawful.refl w, hcx, he⟩

/-- A step after a step. -/
theorem bind {f : α → Lower γ} {g : β → Lower δ} {S : R.World → Context → γ → δ → Prop} (h : Runs R F w cx x y Q)
    (hfg : ∀ a b w' mid, R.Grows w w' → Yields R.watch.schema x cx a mid → Q w' mid a b →
      Runs R F w' mid (f a) (g b) S) : Runs R F w cx (x >>= f) (y >>= g) S := by
  intro hcx frames hF
  obtain ⟨hframes, hnames, halike, w', hgrows, hupheld, hmatch⟩ := h hcx frames hF
  rcases hx : x.exec R.watch.schema cx with ⟨e | a, mid⟩ <;>
    rcases hy : y.exec R.watch.schema { cx with frames := frames } with ⟨e' | b, mid'⟩ <;>
    rw [hx, hy] at hmatch <;> rw [hx] at hframes hnames hupheld <;> rw [hx, hy] at halike
  · rw [exec_bind_error f hx, exec_bind_error g hy]
    exact ⟨hframes, hnames, halike, w', hgrows, hupheld, hmatch⟩
  · exact hmatch.elim
  · exact hmatch.elim
  · obtain rfl : mid' = { mid with frames := frames } := halike
    rw [exec_bind_ok f hx, exec_bind_ok g hy]
    have hframes : mid.frames = cx.frames := hframes
    obtain ⟨hframes', hnames', halike', w'', hgrows', hupheld', hmatch'⟩ :=
      hfg a b w' mid hgrows hx hmatch hupheld frames (hframes.symm ▸ hF)
    exact ⟨hframes'.trans hframes, hnames'.trans hnames, halike', w'', Regime.Lawful.trans hgrows hgrows', hupheld',
      hmatch'⟩

/-- A failure before a step that is not taken. -/
theorem throwBefore {e e' : Error} {f : γ → Lower α} {g : δ → Lower β} (he : ¬ e.OfLending ∧ ¬ e'.OfLending) :
    Runs R F w cx ((MonadExcept.throw e : Lower γ) >>= f) ((MonadExcept.throw e' : Lower δ) >>= g) Q :=
  (throw he : Runs R F w cx _ _ fun _ _ _ _ => False).bind fun _ _ _ _ _ _ h => h.elim

/-- Steps inside frames. -/
theorem withFrame {f g : Frame}
    (h : Runs R G w { cx with frames := f :: cx.frames } x y fun w' cx' => Q w' { cx' with frames := cx.frames })
    (hFG : ∀ frames frames', F frames frames' → G (f :: frames) (g :: frames')) :
    Runs R F w cx (withFrame f x) (withFrame g y) Q := by
  intro hcx frames hF
  obtain ⟨hframes, hnames, halike, w', hgrows, hupheld, hmatch⟩ := h (hcx.withFrames _) _ (hFG _ _ hF)
  rw [exec_withFrame cx hframes, exec_withFrame { cx with frames := frames } (congrArg Context.frames halike)]
  exact ⟨rfl, hnames, congrArg (fun cx' : Context => { cx' with frames := frames }) halike, w', hgrows,
    hupheld.withFrames _, hmatch⟩

theorem names_unbindTo {sc after : Scope} {params : List (String × Node)}
    (h : after.names = (sc.bind params).names) : (after.unbindTo sc.params.length).names = sc.names := by
  -- The parameters inside have the names from before, followed by those that were bound.
  have hinside : (sc.bind params).names = sc.names ++ params.map (·.1) := by
    simp [Scope.names, Scope.bind]
  have hlength : sc.params.length = sc.names.length := by
    simp [Scope.names]
  rw [Scope.names, Scope.unbindTo, List.map_take, hlength]
  exact (congrArg _ (h.trans hinside)).trans List.take_left

/-- Steps with further parameters bound. -/
theorem withParameters {params : List (String × Node)} (hparams : ∀ p ∈ params, R.node w p.2)
    (h : Runs R F w { cx with scope := cx.scope.bind params } x y
      fun w' cx' => Q w' { cx' with scope := cx'.scope.unbindTo cx.scope.params.length }) :
    Runs R F w cx (withParameters params x) (withParameters params y) Q := by
  intro hcx frames hF
  obtain ⟨hframes, hnames, halike, w', hgrows, hupheld, hmatch⟩ :=
    h (hcx.withParams cx.frames (List.forall_mem_append.2 ⟨hcx.params, hparams⟩)) frames hF
  refine ⟨hframes, names_unbindTo hnames, ?_, w', hgrows, hupheld.withParams _ fun p hp => ?_, hmatch⟩
  · exact congrArg (fun cx' : Context => { cx' with scope := cx'.scope.unbindTo cx.scope.params.length }) halike
  · exact hupheld.params p (List.mem_of_mem_take hp)

omit [R.Lawful] in
/-- Steps that first look at the context. -/
theorem getBind {f : Context → Lower α} {g : Context → Lower β} (h : cx.Upheld R w → ∀ frames, F cx.frames frames →
    Runs R F w cx (f cx) (g { cx with frames := frames }) Q) : Runs R F w cx (get >>= f) (get >>= g) Q := by
  intro hcx frames hF
  have hget : ∀ cx : Context, (get : Lower Context).exec R.watch.schema cx = (.ok cx, cx) := fun _ => rfl
  rw [exec_bind_ok f (hget cx), exec_bind_ok g (hget { cx with frames := frames })]
  exact h hcx frames hF hcx frames hF

omit [R.Lawful] in
/-- A step that changes the scope, but not the names of the parameters. -/
theorem update {f : Scope → α × Scope} {Q : R.World → Context → α → α → Prop}
    (hnames : (f cx.scope).2.names = cx.scope.names)
    (h : cx.Upheld R w → ∃ w', R.Grows w w' ∧ Context.Upheld R w' { cx with scope := (f cx.scope).2 } ∧
      Q w' { cx with scope := (f cx.scope).2 } (f cx.scope).1 (f cx.scope).1) :
    Runs R F w cx (update f) (update f) Q := by
  intro hcx frames _
  obtain ⟨w', hgrows, hupheld, hQ⟩ := h hcx
  exact ⟨rfl, hnames, rfl, w', hgrows, hupheld, hQ⟩

end Runs

/-! ## Steps that leave the context as it is -/

section

variable [R.Lawful] {x y : Lower α} {P : α → Prop} {Q : R.World → α → Prop}

theorem Same.bind {f : α → Lower γ} {g : α → Lower δ} {S : R.World → Context → γ → δ → Prop}
    (h : Same R F w cx x y P) (hfg : ∀ a, P a → Runs R F w cx (f a) (g a) S) : Runs R F w cx (x >>= f) (y >>= g) S := by
  refine Runs.bind h ?_
  rintro a _ _ _ - - ⟨rfl, rfl, rfl, ha⟩
  exact hfg a ha

theorem Same.pure {a : α} (h : P a) : Retains R F w cx (pure a) P := Runs.pure ⟨rfl, rfl, rfl, h⟩

omit [R.Lawful] in
theorem Same.agree (h : Same R F w cx x y (Q w)) : Agree R F w cx x y Q := by
  refine h.mono ?_
  rintro _ _ a _ - ⟨rfl, rfl, rfl, ha⟩
  exact ⟨rfl, .refl _, ha⟩

theorem Same.orThrow {e e' : Error} {o : Option α} (he : ¬ e.OfLending ∧ ¬ e'.OfLending) (h : ∀ a ∈ o, P a) :
    Same R F w cx (orThrow e o) (orThrow e' o) P := by
  cases o with
  | some a => exact Same.pure (h a rfl)
  | none => exact Runs.throw he

/-- A value that is there if the steps come in order. -/
theorem Same.present {b b' : Breach} {o : Option α}
    (he : ¬ (Error.invalidState b).OfLending ∧ ¬ (Error.invalidState b').OfLending) (h : ∀ a ∈ o, P a) :
    Same R F w cx (known b o) (known b' o) P := Same.orThrow he h

theorem Retains.ofResult {r : Result α} (h : OrPlain P r) : Retains R F w cx (ofResult r) P := by
  cases r with
  | ok a => exact Same.pure h
  | error e => exact Runs.throw ⟨h, h⟩

theorem Retains.scope : Retains R F w cx scope fun sc => sc = cx.scope ∧ ∀ p ∈ sc.params, R.node w p.2 :=
  Runs.getBind fun hcx _ _ => Same.pure ⟨rfl, hcx.params⟩

theorem Retains.look {f : Schema → Scope → Result α} (h : OrPlain P (f R.watch.schema cx.scope)) :
    Retains R F w cx (look f) P := by
  intro hcx frames hF
  have hlook : ∀ cx : Context, (Lower.look f).exec R.watch.schema cx =
      (Lower.ofResult (f R.watch.schema cx.scope)).exec R.watch.schema cx := fun _ => rfl
  rw [hlook, hlook]
  exact ofResult h hcx frames hF

/-! ## Steps that keep the lent selects -/

theorem Agree.bind {f g : α → Lower γ} {S : R.World → γ → Prop} (h : Agree R F w cx x y Q)
    (hfg : ∀ a w' mid, R.Grows w w' → Q w' a → Agree R F w' mid (f a) (g a) S) :
    Agree R F w cx (x >>= f) (y >>= g) S := by
  refine Runs.bind h ?_
  rintro a _ w' mid hgrows - ⟨rfl, hkept, ha⟩
  refine (hfg a w' mid hgrows ha).mono ?_
  rintro _ _ b _ - ⟨rfl, hkept', hb⟩
  exact ⟨rfl, hkept.trans hkept', hb⟩

theorem Upholds.pure {a : α} (h : Q w a) : Upholds R F w cx (pure a) Q := Runs.pure ⟨rfl, .refl _, h⟩

omit [R.Lawful] in
theorem Upholds.update {f : Scope → α × Scope} (hnames : (f cx.scope).2.names = cx.scope.names)
    (h : cx.Upheld R w → ∃ w', R.Grows w w' ∧ Context.Upheld R w' { cx with scope := (f cx.scope).2 } ∧
      Q w' (f cx.scope).1) : Upholds R F w cx (update f) Q := by
  refine Runs.update hnames fun hcx => ?_
  obtain ⟨w', hgrows, hupheld, hQ⟩ := h hcx
  exact ⟨w', hgrows, hupheld, rfl, .refl _, hQ⟩

/-- A step that changes the scope, but not the names of the parameters, unless it fails. -/
theorem Upholds.attempt {f : Schema → Scope → Result (α × Scope)} (hplain : (f R.watch.schema cx.scope).Plain)
    (hnames : ∀ a after, f R.watch.schema cx.scope = .ok (a, after) → after.names = cx.scope.names)
    (h : ∀ a after, cx.Upheld R w → f R.watch.schema cx.scope = .ok (a, after) →
      ∃ w', R.Grows w w' ∧ Context.Upheld R w' { cx with scope := after } ∧ Q w' a) :
    Upholds R F w cx (attempt f) Q := by
  intro hcx frames _
  have hlook : ∀ cx : Context, (Lower.look f).exec R.watch.schema cx =
      (Lower.ofResult (f R.watch.schema cx.scope)).exec R.watch.schema cx := fun _ => rfl
  rcases hf : f R.watch.schema cx.scope with e | ⟨a, after⟩
  · have hlook' := fun frames => hlook { cx with frames := frames }
    simp only [hf] at hlook'
    rw [Lower.attempt, exec_bind_error _ (hlook' cx.frames), exec_bind_error _ (hlook' frames)]
    exact ⟨rfl, rfl, rfl, w, Regime.Lawful.refl w, hcx, hplain e hf, hplain e hf⟩
  · have hlook' := fun frames => hlook { cx with frames := frames }
    simp only [hf] at hlook'
    rw [Lower.attempt, exec_bind_ok _ (hlook' cx.frames), exec_bind_ok _ (hlook' frames)]
    obtain ⟨w', hgrows, hupheld, hQ⟩ := h a after hcx hf
    exact ⟨rfl, hnames a after hf, rfl, w', hgrows, hupheld, rfl, .refl _, hQ⟩

end

end Lower

end QueryLowering
