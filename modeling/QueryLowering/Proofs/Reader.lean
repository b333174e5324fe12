import QueryLowering.Proofs.Lexemes

/-!
# Reading expressions

An expression is read from left to right with a stack of what is still open: operators that wait for
their right operand, parentheses, calls, lists and choices. An operator takes as its left operand all that
the open operators of no lower rank have gathered, so that operators of higher rank bind more tightly and
operators of one rank associate to the left.

How a chain of one and the same connective is grouped makes no difference to what it means. A tree keeps
such a chain as one node with all its terms.

## Main results

* `Reader.Spells.binary`, `Reader.Spells.connect`, `Reader.Spells.not`, `Reader.Spells.negate`: operators.
* `Reader.Spells.parens`, `Reader.Spells.call`, `Reader.Spells.member`, `Reader.Spells.choice`,
  `Reader.Spells.cast`: what stands between words or parentheses.
* `Reader.Spells.read`: a whole text.
-/

namespace QueryLowering

open List

variable {rank rank' : Nat} {k : Keyword} {ls rest rs : List Lexeme} {lists : List (List Lexeme)} {sign : String}

/-! ## Trees -/

/-- An operator tree, up to the grouping of chains of one connective. -/
inductive Tree where
  | leaf (atoms : List Atom)
  | negate (e : Tree)
  | not (e : Tree)
  | binary (sign : String) (left right : Tree)
  /-- The terms that one connective connects, in their order. -/
  | chain (sign : String) (terms : List Tree)
  | isNull (e : Tree) (negated : Bool)
  | member (e : Tree) (items : List Tree) (negated : Bool)
  | call (name : String) (args : List Tree)
  | choice (test ifTrue ifFalse : Tree)
  | cast (e type : Tree)

namespace Tree

/-- A tree of one word. -/
def word (text : String) : Tree := leaf [.word text]

/-- The terms that a connective connects in a tree: those of a chain of it, and else the tree itself. -/
def terms (sign : String) : Tree → List Tree
  | chain s ts => if s = sign then ts else [chain s ts]
  | t => [t]

/-- Two trees with a connective between them. -/
def connect (sign : String) (left right : Tree) : Tree := chain sign (left.terms sign ++ right.terms sign)

/-- How chains of one connective are grouped makes no difference. -/
theorem connect_assoc (sign : String) (a b c : Tree) :
    connect sign (connect sign a b) c = connect sign a (connect sign b c) := by
  simp [connect, terms]

/-- Two trees with an operator between them. -/
def combine (sign : String) (left right : Tree) : Tree :=
  if sign = "AND" ∨ sign = "OR" then connect sign left right else binary sign left right

end Tree

namespace Reader

/-! ## The stack -/

/-- Something that is open: it waits for an operand, or for a keyword. -/
inductive Frame where
  | negate
  | not
  | binary (sign : String) (rank : Nat) (left : Tree)
  | paren
  | call (name : String) (args : List Tree)
  /-- The type of a conversion is open. -/
  | cast (e : Tree)
  | items (e : Tree) (items : List Tree) (negated : Bool)
  /-- The test of a choice is open. -/
  | test
  | result (test : Tree)
  | otherwise (test ifTrue : Tree)
  /-- A test for null waits for its last word. -/
  | nullTest (e : Tree) (negated : Bool)
  /-- A negated test for membership waits for its second word. -/
  | notIn (e : Tree)
  /-- A test for membership waits for its list. -/
  | member (e : Tree) (negated : Bool)
  | caseOf

/-- The rank of an operator that waits for its right operand. -/
def Frame.rank? : Frame → Option Nat
  | negate => some 7
  | not => some 3
  | binary _ rank _ => some rank
  | _ => none

/-- An operator with its right operand. -/
def Frame.apply : Frame → Tree → Tree
  | negate, t => .negate t
  | not, t => .not t
  | binary sign _ left, t => .combine sign left t
  | _, t => t

/-- Gathers what the innermost operators of no lower rank have for a left operand. -/
def reduce (rank : Nat) : List Frame → Tree → List Frame × Tree
  | [], t => ([], t)
  | f :: stack, t =>
    match f.rank? with
    | some r => if rank ≤ r then reduce rank stack (f.apply t) else (f :: stack, t)
    | none => (f :: stack, t)

/-- What is open, and the operand that was read last unless one is waited for. -/
abbrev State := List Frame × Option Tree

/-- What becomes of a frame. -/
inductive Turn where
  /-- Another frame takes its place. -/
  | opens (f : Frame)
  /-- It is complete. -/
  | completes (t : Tree)

/-- The state in which a turn leaves a stack. -/
def Turn.state (stack : List Frame) : Turn → State
  | opens f => (f :: stack, none)
  | completes t => (stack, some t)

/-! ## Keywords -/

/-- A keyword that a frame waits for in the place of an operand. -/
def Frame.await? : Frame → Keyword → Option Turn
  | nullTest e _, .notWord => some (.opens (nullTest e true))
  | nullTest e negated, .nullWord => some (.completes (.isNull e negated))
  | notIn e, .inWord => some (.opens (member e true))
  | member e negated, .opening => some (.opens (items e [] negated))
  | caseOf, .whenWord => some (.opens test)
  | call name [], .closing => some (.completes (.call name []))
  | _, _ => none

/-- A keyword that starts an operand. -/
def start? : Keyword → Option Turn
  | .opening => some (.opens .paren)
  | .sign "-" _ => some (.opens .negate)
  | .sign "*" _ => some (.completes (.word "*"))
  | .notWord => some (.opens .not)
  | .nullWord => some (.completes (.word "NULL"))
  | .caseWord => some (.opens .caseOf)
  | _ => none

/-- A keyword that takes an operand as its left one, with its rank. -/
def operator? : Keyword → Option (Nat × (Tree → Frame))
  | .sign text rank => some (rank, .binary text rank)
  | .isWord => some (4, (.nullTest · false))
  | .inWord => some (4, (.member · false))
  | .notWord => some (4, .notIn)
  | _ => none

/-- A keyword that ends an operand of a frame. -/
def Frame.close? : Frame → Keyword → Tree → Option Turn
  | paren, .closing, t => some (.completes t)
  | call name args, .comma, t => some (.opens (call name (args ++ [t])))
  | call name args, .closing, t => some (.completes (.call name (args ++ [t])))
  | call "CAST" [], .asWord, t => some (.opens (cast t))
  | cast e, .closing, t => some (.completes (.cast e t))
  | items e ts negated, .comma, t => some (.opens (items e (ts ++ [t]) negated))
  | items e ts negated, .closing, t => some (.completes (.member e (ts ++ [t]) negated))
  | test, .thenWord, t => some (.opens (result t))
  | result c, .elseWord, t => some (.opens (otherwise c t))
  | otherwise c a, .endWord, t => some (.completes (.choice c a t))
  | _, _, _ => none

/-! ## Reading -/

/-- A keyword in the place of an operand. -/
def before (stack : List Frame) (k : Keyword) : Option State :=
  match stack with
  | [] => (start? k).map (Turn.state [])
  | f :: rest =>
    match f.await? k with
    | some turn => some (turn.state rest)
    | none => (start? k).map (Turn.state (f :: rest))

/-- A keyword behind an operand. A parenthesis behind a word opens a call. -/
def behind (stack : List Frame) (t : Tree) (k : Keyword) : Option State :=
  match k, t with
  | .opening, .leaf [.word name] => some (.call name [] :: stack, none)
  | k, t =>
    match operator? k with
    | some (rank, frame) => some (frame (reduce rank stack t).2 :: (reduce rank stack t).1, none)
    | none =>
      match reduce 0 stack t with
      | ([], _) => none
      | (f :: rest, t) => (f.close? k t).map (Turn.state rest)

/-- The state behind one more word. Words that follow each other make one leaf. -/
def step : State → Lexeme → Option State
  | (stack, none), .keyword k => before stack k
  | (stack, some t), .keyword k => behind stack t k
  | (stack, none), .atom a => some (stack, some (.leaf [a]))
  | (stack, some (.leaf atoms)), .atom a => some (stack, some (.leaf (atoms ++ [a])))
  | (_, some _), .atom _ => none

/-- The state behind some more words. -/
def run : State → List Lexeme → Option State
  | s, [] => some s
  | s, l :: ls => (step s l).bind (run · ls)

/-- The tree of an expression, which is read as if it stood in parentheses. -/
def read (ls : List Lexeme) : Option Tree :=
  match run ([.paren], none) (ls ++ [.keyword .closing]) with
  | some ([], some t) => some t
  | _ => none

example : read (lex "a - b * c - d AND NOT e = f AND g OR h") =
    some (.chain "OR" [.chain "AND" [
      .binary "-" (.binary "-" (.word "a") (.binary "*" (.word "b") (.word "c"))) (.word "d"),
      .not (.binary "=" (.word "e") (.word "f")), .word "g"], .word "h"]) := by
  rfl

/-! ## Operands -/

/-- Whether an operand of some rank may start on a frame: the frame waits for an operand, and it binds less
tightly if it is an operator. -/
def Frame.admits (rank : Nat) : Frame → Bool
  | negate => 7 ≤ rank
  | not => 3 ≤ rank
  | binary _ r _ => r < rank
  | paren | call .. | cast _ | items .. | test | result _ | otherwise .. => true
  | nullTest .. | notIn _ | member .. | caseOf => false

/-- An operand of some rank may start on a stack. -/
def Below (rank : Nat) (stack : List Frame) : Prop := ∀ f ∈ stack.head?, f.admits rank = true

/-- The connective of a rank. -/
def connective? : Nat → Option String
  | 1 => some "OR"
  | 2 => some "AND"
  | _ => none

/-- An operand of some rank may start on a stack, or go on with a chain of the connective of that rank. -/
def Admits (rank : Nat) (stack : List Frame) : Prop :=
  Below rank stack ∨ ∃ sign left rest, connective? rank = some sign ∧ stack = .binary sign rank left :: rest ∧
    Below rank rest

/-- Whether a keyword may stand behind an operand of some rank. -/
def follows (rank : Nat) : Keyword → Bool
  | .sign _ r => r ≤ rank
  | .isWord | .inWord | .notWord => 4 ≤ rank
  | .closing | .comma | .thenWord | .elseWord | .endWord | .asWord => true
  | .opening | .nullWord | .caseWord | .whenWord => false

/-- Words that are read as a tree, wherever an operand of some rank may start and whatever keyword that may
stand behind such an operand follows. -/
def Spells (rank : Nat) (ls : List Lexeme) (t : Tree) : Prop :=
  ∀ stack, Admits rank stack → ∀ k rest, follows rank k = true →
    run (stack, none) (ls ++ .keyword k :: rest) = run (stack, some t) (.keyword k :: rest)

section

variable {stack : List Frame} {f : Frame} {t : Tree}

theorem Frame.admits_mono (h : f.admits rank = true) (hrank : rank ≤ rank') : f.admits rank' = true := by
  cases f with
  | negate | not | binary _ _ _ =>
    simp only [Frame.admits, decide_eq_true_eq] at h ⊢
    omega
  | _ => exact h

theorem Admits.mono (h : Admits rank stack) (hrank : rank ≤ rank') : Admits rank' stack := by
  rcases Nat.eq_or_lt_of_le hrank with rfl | hlt
  · exact h
  · left
    intro f hf
    rcases h with h | ⟨sign, left, rest, -, rfl, -⟩
    · exact Frame.admits_mono (h f hf) hrank
    · obtain rfl := Option.some.inj hf
      simpa [Frame.admits] using hlt

/-- Only a connective goes on with a chain. -/
theorem Admits.below (h : Admits rank stack) (hrank : connective? rank = none) : Below rank stack := by
  rcases h with h | ⟨_, _, _, hsome, -⟩
  · exact h
  · rw [hrank] at hsome
    cases hsome

theorem follows_mono (h : follows rank k = true) (hrank : rank ≤ rank') : follows rank' k = true := by
  cases k with
  | sign | isWord | inWord | notWord =>
    simp only [follows, decide_eq_true_eq] at h ⊢
    omega
  | _ => exact h

/-- What is read as an operand of a rank is one of every lower rank. -/
theorem Spells.mono (h : Spells rank' ls t) (hrank : rank ≤ rank') : Spells rank ls t :=
  fun stack hstack k rest hk => h stack (hstack.mono hrank) k rest (follows_mono hk hrank)

/-! ### Single steps -/

/-- An operand starts with a keyword. -/
theorem run_start (hstack : Admits rank stack) {turn : Turn} (hk : start? k = some turn) :
    run (stack, none) (.keyword k :: rest) = run (turn.state stack) rest := by
  have hbefore : before stack k = some (turn.state stack) := by
    cases stack with
    | nil => simp [before, hk]
    | cons f stack =>
      have hawait : f.await? k = none := by
        rcases hstack with hbelow | ⟨sign, left, rest, -, hframe, -⟩
        · have hadmits := hbelow f rfl
          cases f with
          | nullTest _ _ | notIn _ | member _ _ | caseOf => cases hadmits
          | call name args =>
            cases k with
            | closing => cases hk
            | _ => cases args <;> rfl
          | _ => rfl
        · obtain ⟨rfl, -⟩ := List.cons.inj hframe
          rfl
      simp [before, hawait, hk]
  rw [run, step, hbefore]
  rfl

theorem reduce_of_rank (hf : f.rank? = some rank') (hrank : rank ≤ rank') :
    reduce rank (f :: stack) t = reduce rank stack (f.apply t) := by
  simp [reduce, hf, hrank]

/-- No operator that an operand may start on is of the rank of a binary operator that comes behind it. -/
theorem reduce_of_below (h : Below rank stack) (hnot : rank ≠ 3) (hneg : rank ≠ 7) :
    reduce rank stack t = (stack, t) := by
  cases stack with
  | nil => rfl
  | cons f stack =>
    have hadmits := h f rfl
    cases f with
    | negate | not | binary _ _ _ =>
      simp only [Frame.admits, decide_eq_true_eq] at hadmits
      simp only [reduce, Frame.rank?]
      rw [if_neg (by omega)]
    | _ => rfl

theorem behind_operator {frame : Tree → Frame} (hk : operator? k = some (rank, frame)) :
    behind stack t k = some (frame (reduce rank stack t).2 :: (reduce rank stack t).1, none) := by
  cases k with
  | opening => cases hk
  | _ => simp only [behind, hk]

theorem behind_close (hk : operator? k = none) (hopening : k ≠ .opening) : behind stack t k =
    match reduce 0 stack t with
    | ([], _) => none
    | (f :: rest, t) => (f.close? k t).map (Turn.state rest) := by
  cases k with
  | opening => exact absurd rfl hopening
  | _ => simp only [behind, hk]

/-- An operator takes its right operand when a keyword follows that binds no more tightly. -/
theorem run_apply (hf : f.rank? = some rank) (hk : follows rank k = true) :
    run (f :: stack, some t) (.keyword k :: rest) = run (stack, some (f.apply t)) (.keyword k :: rest) := by
  have hbehind : behind (f :: stack) t k = behind stack (f.apply t) k := by
    cases hoperator : operator? k with
    | some r =>
      obtain ⟨r, frame⟩ := r
      have hr : r ≤ rank := by
        cases k with
        | sign | isWord | inWord | notWord =>
          simp only [operator?, Option.some.injEq, Prod.mk.injEq] at hoperator
          simp only [follows, decide_eq_true_eq] at hk
          omega
        | _ => cases hoperator
      rw [behind_operator hoperator, behind_operator hoperator, reduce_of_rank hf hr]
    | none =>
      have hopening : k ≠ .opening := by
        rintro rfl
        cases hk
      rw [behind_close hoperator hopening, behind_close hoperator hopening, reduce_of_rank hf (Nat.zero_le _)]
  rw [run, step, hbehind]
  rfl

/-- A binary operator behind its left operand. -/
theorem run_operator {frame : Tree → Frame} (hk : operator? k = some (rank, frame)) (hbelow : Below rank stack)
    (hnot : rank ≠ 3) (hneg : rank ≠ 7) :
    run (stack, some t) (.keyword k :: rest) = run (frame t :: stack, none) rest := by
  rw [run, step, behind_operator hk, reduce_of_below hbelow hnot hneg]
  rfl

/-- The operand of a frame that is no operator, up to the keyword that ends it. -/
theorem Spells.close (h : Spells rank ls t) (hf : f.admits rank = true) (hrank : f.rank? = none)
    (hk : operator? k = none) (hfollows : follows rank k = true) {turn : Turn} (hclose : f.close? k t = some turn) :
    run (f :: stack, none) (ls ++ .keyword k :: rest) = run (turn.state stack) rest := by
  have hadmits : Admits rank (f :: stack) := .inl fun g hg => Option.some.inj hg ▸ hf
  have hopening : k ≠ .opening := by
    rintro rfl
    cases hfollows
  rw [h _ hadmits k rest hfollows, run, step, behind_close hk hopening]
  simp [reduce, hrank, hclose]

end

/-! ### Words -/

section

variable {l r t : Tree}
variable {ts : List Tree}

theorem run_atoms (stack : List Frame) (atoms more : List Atom) (rest : List Lexeme) :
    run (stack, some (.leaf atoms)) (more.map .atom ++ rest) = run (stack, some (.leaf (atoms ++ more))) rest := by
  induction more generalizing atoms with
  | nil => rw [map_nil, nil_append, append_nil]
  | cons a more ih =>
    rw [map_cons, cons_append, run, step]
    exact (ih (atoms ++ [a])).trans (by rw [append_assoc, singleton_append])

/-- Words that are no keywords make one leaf. -/
theorem Spells.leaf (a : Atom) (more : List Atom) : Spells rank ((a :: more).map .atom) (.leaf (a :: more)) :=
  fun stack _ k rest _ => run_atoms stack [a] more (.keyword k :: rest)

theorem Spells.atom (a : Atom) : Spells rank [.atom a] (.leaf [a]) := .leaf a []

/-- A keyword that is an operand by itself. -/
theorem Spells.keyword (hk : start? k = some (.completes t)) : Spells rank [.keyword k] t := by
  intro stack hstack k' rest _
  rw [singleton_append, run_start hstack hk]
  rfl

/-! ### Operators -/

/-- A binary operator that is no connective. -/
theorem Spells.binary (hsign : ¬ (sign = "AND" ∨ sign = "OR"))
    (hconnective : connective? rank = none) (hnot : rank ≠ 3) (hneg : rank ≠ 7) (hl : Spells rank ls l)
    (hr : Spells (rank + 1) rs r) : Spells rank (ls ++ .keyword (.sign sign rank) :: rs) (.binary sign l r) := by
  intro stack hstack k rest hk
  have hbelow : Below rank stack := hstack.below hconnective
  have hright : Admits (rank + 1) (.binary sign rank l :: stack) := by
    left
    intro f hf
    obtain rfl := Option.some.inj hf
    simp [Frame.admits]
  have hself : follows rank (.sign sign rank) = true := by simp [follows]
  rw [append_assoc, cons_append, hl stack hstack _ _ hself, run_operator rfl hbelow hnot hneg,
    hr _ hright k rest (follows_mono hk (Nat.le_succ _)), run_apply rfl hk]
  rw [Frame.apply, Tree.combine, if_neg hsign]

/-- A connective. Its right operand may be a chain of the same connective, and it may go on with one.

**Proof sketch.** If the operand starts on a chain, then the connective adds the left operand to the chain
before the right one is read, and the terms come in the same order. -/
theorem Spells.connect (hsign : connective? rank = some sign) (hl : Spells rank ls l)
    (hr : Spells rank rs r) : Spells rank (ls ++ .keyword (.sign sign rank) :: rs) (.connect sign l r) := by
  obtain ⟨hword, hnot, hneg⟩ : (sign = "AND" ∨ sign = "OR") ∧ rank ≠ 3 ∧ rank ≠ 7 := by
    unfold connective? at hsign
    split at hsign
    · exact ⟨.inr (Option.some.inj hsign).symm, by decide, by decide⟩
    · exact ⟨.inl (Option.some.inj hsign).symm, by decide, by decide⟩
    · cases hsign
  have happly : ∀ a b, (Frame.binary sign rank a).apply b = .connect sign a b := fun a b => by
    rw [Frame.apply, Tree.combine, if_pos hword]
  intro stack hstack k rest hk
  have hself : follows rank (.sign sign rank) = true := by simp [follows]
  have hright : ∀ a, ∀ below, Below rank below → run (.binary sign rank a :: below, none) (rs ++ .keyword k :: rest) =
        run (below, some (.connect sign a r)) (.keyword k :: rest) := by
    intro a below hbelow
    rw [hr _ (.inr ⟨sign, a, below, hsign, rfl, hbelow⟩) k rest hk, run_apply rfl hk, happly]
  rw [append_assoc, cons_append, hl stack hstack _ _ hself]
  rcases hstack with hbelow | ⟨sign', first, below, hsign', rfl, hbelow⟩
  · rw [run_operator rfl hbelow hnot hneg, hright l stack hbelow]
  · obtain rfl : sign = sign' := Option.mem_unique hsign hsign'
    rw [run_apply rfl hself, run_operator rfl hbelow hnot hneg, happly, hright _ below hbelow, run_apply rfl hk, happly,
      Tree.connect_assoc]

/-- An operator in front of its operand, which may start with the same operator. -/
theorem Spells.front {f : Frame} (hk : start? k = some (.opens f)) (hrank : f.rank? = some rank)
    (hadmits : f.admits rank = true) (h : Spells rank ls t) : Spells rank (.keyword k :: ls) (f.apply t) := by
  intro stack hstack k' rest hk'
  have hoperand : Admits rank (f :: stack) := .inl fun g hg => Option.some.inj hg ▸ hadmits
  rw [cons_append, run_start hstack hk]
  exact (h _ hoperand k' rest hk').trans (run_apply hrank hk')

/-- The negation of a condition. -/
theorem Spells.not (h : Spells 3 ls t) : Spells 3 (.keyword .notWord :: ls) (.not t) := .front (f := .not) rfl rfl rfl h

/-- The negation of a number. -/
theorem Spells.negate (h : Spells 7 ls t) : Spells 7 (.keyword (.sign "-" 5) :: ls) (.negate t) :=
  .front (f := .negate) rfl rfl rfl h

/-! ### Tests -/

/-- The words of a test for null. -/
def nullWords (negated : Bool) : List Lexeme :=
  .keyword .isWord :: if negated then [.keyword .notWord, .keyword .nullWord] else [.keyword .nullWord]

theorem Spells.isNull (h : Spells 4 ls t) (negated : Bool) :
    Spells 4 (ls ++ nullWords negated) (.isNull t negated) := by
  intro stack hstack k rest _
  rw [append_assoc, nullWords, cons_append, h stack hstack _ _ rfl,
    run_operator rfl (hstack.below rfl) (by decide) (by decide)]
  cases negated <;> rfl

/-! ### Parentheses and lists -/

theorem Spells.parens (h : Spells rank ls t) : Spells rank' (.keyword .opening :: (ls ++ [.keyword .closing])) t := by
  intro stack hstack k rest _
  rw [cons_append, append_assoc, singleton_append, run_start hstack rfl]
  change run (.paren :: stack, none) _ = _
  rw [h.close rfl rfl rfl rfl rfl]
  rfl

/-- Lists of words with commas between them. -/
def commas (lists : List (List Lexeme)) : List Lexeme := [.keyword .comma].intercalate lists

/-- A frame that gathers the items of a list up to the parenthesis that ends it. -/
structure Gathers (frame : List Tree → Frame) (done : List Tree → Tree) : Prop where
  comma : ∀ ts t, (frame ts).close? .comma t = some (.opens (frame (ts ++ [t])))
  closing : ∀ ts t, (frame ts).close? .closing t = some (.completes (done (ts ++ [t])))
  rank : ∀ ts, (frame ts).rank? = none
  admits : ∀ ts rank, (frame ts).admits rank = true

theorem gathers_call (name : String) : Gathers (.call name) (.call name) where
  comma _ _ := rfl
  closing _ _ := rfl
  rank _ := rfl
  admits _ _ := rfl

theorem gathers_items (e : Tree) (negated : Bool) : Gathers (.items e · negated) (.member e · negated) where
  comma _ _ := rfl
  closing _ _ := rfl
  rank _ := rfl
  admits _ _ := rfl

/-- The items of a list, behind those that were read before. -/
theorem Gathers.run {frame : List Tree → Frame} {done : List Tree → Tree} (hframe : Gathers frame done)
    (h : List.Forall₂ (Spells rank) lists ts) (hne : lists ≠ [])
    (first : List Tree) (stack : List Frame) (rest : List Lexeme) :
    run (frame first :: stack, none) (commas lists ++ .keyword .closing :: rest) =
      run (stack, some (done (first ++ ts))) rest := by
  induction h generalizing first with
  | nil => exact absurd rfl hne
  | @cons ls t lists ts hls hlists ih =>
    cases hlists with
    | nil =>
      have hcommas : commas [ls] = ls := by simp [commas]
      rw [hcommas, hls.close (hframe.admits first rank) (hframe.rank first) rfl rfl (hframe.closing first t)]
      rfl
    | @cons ls' t' lists ts hls' hlists =>
      have hcommas : commas (ls :: ls' :: lists) = ls ++ .keyword .comma :: commas (ls' :: lists) := by
        simp [commas, List.intercalate]
      rw [hcommas, append_assoc, cons_append,
        hls.close (hframe.admits first rank) (hframe.rank first) rfl rfl (hframe.comma first t)]
      have hmore := ih (cons_ne_nil _ _) (first ++ [t])
      rwa [append_assoc] at hmore

/-- A call. -/
theorem Spells.call {name : String} (h : List.Forall₂ (Spells rank) lists ts) :
    Spells rank' (.atom (.word name) :: .keyword .opening :: (commas lists ++ [.keyword .closing]))
      (.call name ts) := by
  intro stack _ k rest _
  rw [cons_append, cons_append, append_assoc]
  change run (.call name [] :: stack, none) _ = _
  cases h with
  | nil => rfl
  | cons hls hlists =>
    exact (gathers_call name).run (.cons hls hlists) (cons_ne_nil _ _) [] stack (.keyword k :: rest)

/-- The words of a test for membership in front of its list. -/
def memberWords (negated : Bool) : List Lexeme :=
  if negated then [.keyword .notWord, .keyword .inWord] else [.keyword .inWord]

/-- A test for membership in a list. -/
theorem Spells.member (h : Spells 4 ls t)
    (hlists : List.Forall₂ (Spells rank) lists ts) (hne : lists ≠ []) (negated : Bool) :
    Spells 4 (ls ++ memberWords negated ++ .keyword .opening :: (commas lists ++ [.keyword .closing]))
      (.member t ts negated) := by
  intro stack hstack k rest _
  have hlist := (gathers_items t negated).run hlists hne [] stack (.keyword k :: rest)
  have hwords : run (stack, none) (ls ++ (memberWords negated ++ .keyword .opening ::
      (commas lists ++ .keyword .closing :: .keyword k :: rest))) =
        run (.items t [] negated :: stack, none) (commas lists ++ .keyword .closing :: .keyword k :: rest) := by
    cases negated <;>
      rw [memberWords] <;>
      simp only [Bool.false_eq_true, ↓reduceIte, cons_append, nil_append] <;>
      rw [h stack hstack _ _ rfl, run_operator rfl (hstack.below rfl) (by decide) (by decide)] <;>
      rfl
  simp only [append_assoc, cons_append, nil_append]
  exact hwords.trans hlist

/-! ### Choices and conversions -/

theorem Spells.choice {rankTest rankTrue rankFalse : Nat} {test ifTrue ifFalse : List Lexeme} {c a b : Tree}
    (hc : Spells rankTest test c) (ha : Spells rankTrue ifTrue a) (hb : Spells rankFalse ifFalse b) :
    Spells rank (.keyword .caseWord :: .keyword .whenWord :: (test ++ .keyword .thenWord ::
      (ifTrue ++ .keyword .elseWord :: (ifFalse ++ [.keyword .endWord])))) (.choice c a b) := by
  intro stack hstack k rest _
  simp only [cons_append, append_assoc, nil_append]
  rw [run_start hstack rfl]
  change run (.test :: stack, none) _ = _
  rw [hc.close rfl rfl rfl rfl rfl]
  change run (.result c :: stack, none) _ = _
  rw [ha.close rfl rfl rfl rfl rfl]
  change run (.otherwise c a :: stack, none) _ = _
  rw [hb.close rfl rfl rfl rfl rfl]
  rfl

theorem Spells.cast {type : List Lexeme} {e t : Tree} (he : Spells rank ls e) (ht : Spells rank type t) :
    Spells rank' (.atom (.word "CAST") :: .keyword .opening ::
      (ls ++ .keyword .asWord :: (type ++ [.keyword .closing]))) (.cast e t) := by
  intro stack _ k rest _
  simp only [cons_append, append_assoc, nil_append]
  change run (.call "CAST" [] :: stack, none) _ = _
  rw [he.close rfl rfl rfl rfl rfl]
  change run (.cast e :: stack, none) _ = _
  rw [ht.close rfl rfl rfl rfl rfl]
  rfl

/-! ### Whole texts -/

/-- What is read as an operand is read as a whole text. -/
theorem Spells.read (h : Spells rank ls t) : read ls = some t := by
  have hrun : run ([.paren], none) (ls ++ [.keyword .closing]) =
      run (Turn.state [] (.completes t)) [] := h.close rfl rfl rfl rfl rfl
  rw [Reader.read, hrun]
  rfl

end

end Reader

end QueryLowering
