import QueryLowering.Lower.Function
import Mathlib.Data.List.Infix

/-!
# Patterns of string tests

A test whether a text contains, starts with or ends with another one is a `LIKE` test. The text that is
looked for becomes a part of the pattern as it is, so that wildcards in it keep their meaning: the test
finds every text that it should find, and only those exactly if nothing in it is a wildcard.

## Main results

* `Like.accepts_append`: a pattern after a pattern.
* `Wildcards.accepts_around`: the texts that the pattern of a string test finds.
* `stringTest_finds`: what a string test finds.
-/

namespace QueryLowering

open Sql List

/-! ## Matching -/

namespace Like

/-- Whether a text matches a pattern, in which `%` stands for any text and `_` for any character. -/
def accepts : List Char → List Char → Bool
  | [], t => t.isEmpty
  | c :: p, t =>
    if c = '%' then t.tails.any (accepts p)
    else t.head?.any (fun d => c = '_' || c = d) && accepts p t.tail

/-- Whether a character has a meaning of its own in patterns. -/
def isWildcard (c : Char) : Bool := c = '%' || c = '_'

variable {p q s t : List Char} {c : Char}

theorem accepts_nil : accepts [] t = true ↔ t = [] := isEmpty_iff

theorem accepts_percent : accepts ('%' :: p) t = true ↔ ∃ u v, u ++ v = t ∧ accepts p v = true := by
  rw [accepts, if_pos rfl, any_eq_true]
  constructor
  · rintro ⟨v, hv, hp⟩
    obtain ⟨u, hu⟩ := (mem_tails v t).1 hv
    exact ⟨u, v, hu, hp⟩
  · rintro ⟨u, v, hu, hp⟩
    exact ⟨v, (mem_tails v t).2 ⟨u, hu⟩, hp⟩

theorem accepts_cons (hc : c ≠ '%') :
    accepts (c :: p) t = true ↔ ∃ d v, t = d :: v ∧ (c = '_' ∨ c = d) ∧ accepts p v = true := by
  rw [accepts, if_neg hc]
  cases t with
  | nil => simp
  | cons d v => simp

/-- A pattern after a pattern takes the text apart, by induction over the first one. -/
theorem accepts_append : accepts (p ++ q) t = true ↔ ∃ u v, u ++ v = t ∧ accepts p u = true ∧ accepts q v = true := by
  induction p generalizing t with
  | nil => exact ⟨fun h => ⟨[], t, rfl, rfl, h⟩, fun ⟨u, v, huv, hu, hv⟩ => by rwa [← huv, accepts_nil.1 hu]⟩
  | cons c p ih =>
    rw [cons_append]
    by_cases hc : c = '%'
    · subst hc
      simp only [accepts_percent, ih]
      constructor
      · rintro ⟨u, _, rfl, v, w, rfl, hp, hq⟩
        exact ⟨u ++ v, w, append_assoc .., ⟨u, v, rfl, hp⟩, hq⟩
      · rintro ⟨_, w, rfl, ⟨u, v, rfl, hp⟩, hq⟩
        exact ⟨u, v ++ w, (append_assoc ..).symm, v, w, rfl, hp, hq⟩
    · simp only [accepts_cons hc, ih]
      constructor
      · rintro ⟨d, _, rfl, hd, v, w, rfl, hp, hq⟩
        exact ⟨d :: v, w, rfl, ⟨d, v, rfl, hd, hp⟩, hq⟩
      · rintro ⟨_, w, rfl, ⟨d, v, rfl, hd, hp⟩, hq⟩
        exact ⟨d, v ++ w, rfl, hd, v, w, rfl, hp, hq⟩

/-- A pattern matches itself as a text. -/
theorem accepts_self (s : List Char) : accepts s s = true := by
  induction s with
  | nil => rfl
  | cons c s ih =>
    by_cases hc : c = '%'
    · subst hc
      exact accepts_percent.2 ⟨['%'], s, rfl, ih⟩
    · exact (accepts_cons hc).2 ⟨c, s, rfl, .inr rfl, ih⟩

/-- A pattern without wildcards matches itself only. -/
theorem accepts_of_plain (hs : ∀ c ∈ s, isWildcard c = false) : accepts s t = true ↔ s = t := by
  refine ⟨fun h => ?_, fun h => h ▸ accepts_self s⟩
  induction s generalizing t with
  | nil => exact (accepts_nil.1 h).symm
  | cons c s ih =>
    obtain ⟨hc, hs⟩ := forall_mem_cons.1 hs
    simp only [isWildcard, Bool.or_eq_false_iff, decide_eq_false_iff_not] at hc
    obtain ⟨d, v, rfl, hd, hv⟩ := (accepts_cons hc.1).1 h
    rw [hd.resolve_left hc.2, ih hs hv]

/-- A text without wildcards that matches a pattern: one character for each `_` and none for `%`. -/
def sample : List Char → List Char
  | [] => []
  | c :: p => if c = '%' then sample p else (if c = '_' then 'x' else c) :: sample p

theorem accepts_sample (p : List Char) : accepts p (sample p) = true := by
  induction p with
  | nil => rfl
  | cons c p ih =>
    by_cases hc : c = '%'
    · subst hc
      exact accepts_percent.2 ⟨[], _, rfl, ih⟩
    · rw [sample, if_neg hc]
      refine (accepts_cons hc).2 ⟨_, _, rfl, ?_, ih⟩
      split
      · next hc => exact .inl hc
      · exact .inr rfl

theorem isWildcard_of_mem_sample (hc : c ∈ sample p) : isWildcard c = false := by
  induction p with
  | nil => cases hc
  | cons d p ih =>
    rw [sample] at hc
    split at hc
    · exact ih hc
    · next hd =>
      rcases mem_cons.1 hc with rfl | hc
      · split
        · rfl
        · next hd' => simp [isWildcard, hd, hd']
      · exact ih hc

end Like

/-! ## The patterns of string tests -/

namespace Wildcards

/-- A text stands in another one where the wildcards leave room for it: anywhere, at the start or at the end. -/
def Places : Wildcards → List Char → List Char → Prop
  | both, u, t => u <:+: t
  | trailing, u, t => u <+: t
  | leading, u, t => u <:+ t

variable {w : Wildcards} {s : String} {t u : List Char}

theorem Places.subset (h : w.Places u t) : u ⊆ t := by
  cases w with
  | both => exact List.IsInfix.subset h
  | trailing => exact List.IsPrefix.subset h
  | leading => exact List.IsSuffix.subset h

theorem places_self (w : Wildcards) (t : List Char) : w.Places t t := by
  cases w with
  | both => exact infix_rfl
  | trailing => exact prefix_rfl
  | leading => exact suffix_rfl

/-- The pattern of a string test finds the texts in which something stands in the right place that matches the text
that is looked for. -/
theorem accepts_around :
    Like.accepts (w.around s).toList t = true ↔ ∃ u, w.Places u t ∧ Like.accepts s.toList u = true := by
  have hpercent : ∀ t, Like.accepts ['%'] t = true := fun t =>
    Like.accepts_percent.2 ⟨t, [], append_nil t, rfl⟩
  cases w with simp only [around, String.toList_append, Like.accepts_append]
  | both =>
    constructor
    · rintro ⟨_, y, rfl, ⟨x, u, rfl, -, hu⟩, -⟩
      exact ⟨u, ⟨x, y, rfl⟩, hu⟩
    · rintro ⟨u, ⟨x, y, rfl⟩, hu⟩
      exact ⟨x ++ u, y, rfl, ⟨x, u, rfl, hpercent x, hu⟩, hpercent y⟩
  | trailing =>
    constructor
    · rintro ⟨u, y, rfl, hu, -⟩
      exact ⟨u, ⟨y, rfl⟩, hu⟩
    · rintro ⟨u, ⟨y, rfl⟩, hu⟩
      exact ⟨u, y, rfl, hu, hpercent y⟩
  | leading =>
    constructor
    · rintro ⟨x, u, rfl, -, hu⟩
      exact ⟨u, ⟨x, rfl⟩, hu⟩
    · rintro ⟨u, ⟨x, rfl⟩, hu⟩
      exact ⟨x, u, rfl, hpercent x, hu⟩

/-- The pattern finds nothing else exactly if the text that is looked for has no wildcards.

**Proof sketch.** Without wildcards a text matches itself only. With a wildcard, the sample of the text is found: it has
no wildcards, so that the text does not stand in it. -/
theorem accepts_around_iff_places : (∀ t, Like.accepts (w.around s).toList t = true ↔ w.Places s.toList t) ↔
      ∀ c ∈ s.toList, Like.isWildcard c = false := by
  simp only [accepts_around]
  constructor
  · intro h c hc
    have hplaces := (h (Like.sample s.toList)).1 ⟨_, w.places_self _, Like.accepts_sample _⟩
    exact Like.isWildcard_of_mem_sample (hplaces.subset hc)
  · intro hs t
    constructor
    · rintro ⟨u, hu, hmatch⟩
      rwa [(Like.accepts_of_plain hs).1 hmatch]
    · exact fun h => ⟨_, h, Like.accepts_self _⟩

end Wildcards

/-- The text that an expression stands for, if those that are neither known nor concatenated stand for given ones. -/
def Sql.Node.text? (others : Node → Option String) : Node → Option String
  | .literal (.string s) => some s
  | .parameter _ (.string s) => some s
  | .binary .concat left right => do return (← left.text? others) ++ (← right.text? others)
  | n => others n

/-- The pattern of a string test stands for the text that is looked for with the wildcards around it, whichever form
it takes. -/
theorem text?_likePattern (w : Wildcards) (n : Node) (others : Node → Option String) :
    (likePattern w n).text? others = (n.text? others).map w.around := by
  have hconcat : ∀ left right : Node, (Node.operation .concat left right).text? others =
      do return (← left.text? others) ++ (← right.text? others) := fun _ _ => by
    rw [Node.operation, if_neg (by simp [Node.isEquality]), if_neg (by simp [Node.isEquality]), Node.text?]
  have hpercent : percent.text? others = some "%" := by
    rw [percent, Node.text?]
  unfold likePattern
  split
  · rw [Node.text?, Node.text?, Option.map_some]
  · rw [Node.text?, Node.text?, Option.map_some]
  · cases w <;> cases hn : n.text? others <;> simp [Wildcards.concatenated, hconcat, hpercent, Wildcards.around, hn]

/-- **What string tests find.** A call of `Contains`, `StartsWith` or `EndsWith` becomes a `LIKE` test whose pattern
stands for the text that is looked for with the wildcards around it. The pattern finds the texts in which
something stands in the right place that matches the text as a pattern, so in particular all in which the text
itself does. It finds no others exactly if the text has no wildcards. -/
theorem stringTest_finds {m : Method} {w : Wildcards} (htype : m.declaringType = "String")
    (hname : patternTest? m.name = some w) (text sought : Node) :
    ∃ pattern, lowerMethod m true [text, sought] = .ok (.operation .like text pattern) ∧
      ∀ others, pattern.text? others = (sought.text? others).map w.around ∧ ∀ s ∈ sought.text? others,
        (∀ t, Like.accepts (w.around s).toList t ↔ ∃ u, w.Places u t ∧ Like.accepts s.toList u) ∧
        (∀ t, w.Places s.toList t → Like.accepts (w.around s).toList t) ∧
        ((∀ t, Like.accepts (w.around s).toList t ↔ w.Places s.toList t) ↔
          ∀ c ∈ s.toList, Like.isWildcard c = false) := by
  refine ⟨likePattern w sought, ?_, fun others => ⟨text?_likePattern w sought others, fun s _ => ?_⟩⟩
  · rw [lowerMethod, lowerStringMethod, hname]
    · rfl
    · exact htype
  · refine ⟨fun t => Wildcards.accepts_around, fun t ht => ?_, Wildcards.accepts_around_iff_places⟩
    exact Wildcards.accepts_around.2 ⟨_, ht, Like.accepts_self _⟩

namespace Sample

/-- A search for underscores finds names that have none. -/
theorem underscore_finds_ann :
    lowerMethod ⟨"String", "Contains", []⟩ true [.column ⟨1⟩ "FullName", .literal (.string "_")] =
      .ok (.binary .like (.column ⟨1⟩ "FullName") (.literal (.string "%_%"))) ∧
    Like.accepts "%_%".toList "Ann".toList = true ∧ ¬ "_".toList <:+: "Ann".toList ∧
    ¬ (∀ t, Like.accepts (Wildcards.both.around "_").toList t ↔ Wildcards.both.Places "_".toList t) := by
  obtain ⟨pattern, hlower, hfinds⟩ := stringTest_finds (m := ⟨"String", "Contains", []⟩) rfl rfl
    (.column ⟨1⟩ "FullName") (.literal (.string "_"))
  obtain ⟨-, hs⟩ := hfinds fun _ => none
  refine ⟨rfl, by decide, by decide, fun h => ?_⟩
  exact absurd ((hs "_" rfl).2.2.1 h '_' (by decide)) (by decide)

end Sample

end QueryLowering
