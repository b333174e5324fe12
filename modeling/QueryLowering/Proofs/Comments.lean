import QueryLowering.Proofs.Calls
import QueryLowering.Proofs.Placeholder

/-!
# Comments in compiled statements

A statement in which no comment starts is read to its end. Comments start where pieces of text fuse, and
the pieces that a statement is made of fuse in one place only: a negation is a minus sign directly in front
of its operand, and an operand that is a negation or a negative number starts with a minus sign itself.
Names, strings and all else that stands between quotes cannot open a comment, whatever their characters.

## Main results

* `Sql.Node.isNegative_of_operand`: which operands start with a minus sign.
* `Sql.writes_readsTo`: readers of written texts.
* `opensComment_iff_doublesMinus`: compiled statements.
-/

namespace QueryLowering

open Sql Result List Fragment
open Form (asValue atom literal)

variable {a b : List Token} {f g : Fragment} {text name : String} {e : Node}

namespace Sql

/-- A negation or a negative number. -/
def Node.isNegative : Node → Bool
  | .unary .minus _ => true
  | .literal (.int n) => n < 0
  | .literal (.float x) => FloatLayout.isSigned x
  | _ => false

/-- A negation of a negation or of a negative number. -/
def Node.isDoubleNegation : Node → Bool
  | .unary .minus e => e.isNegative
  | _ => false

end Sql

/-- The characters of some tokens in a statement with given parameters. -/
def tokenChars (d : Dialect) (parameters : List (String × Value)) (ts : List Token) : List Char :=
  ts.flatMap fun t => (t.text d parameters).toList

/-- The sign of a negation stands in front of text that starts with a minus sign. -/
def DoublesMinus (d : Dialect) (parameters : List (String × Value)) : List Token → Prop
  | [] => False
  | t :: ts => (t = .raw "-" ∧ (tokenChars d parameters ts).head? = some '-') ∨ DoublesMinus d parameters ts

/-- A name without the characters of quotes and comments. -/
def isPlainName (name : String) : Bool := name.toList.all Scan.isCalm

section

variable {d : Dialect} {parameters : List (String × Value)}

@[simp]
theorem tokenChars_nil : tokenChars d parameters [] = [] := rfl

@[simp]
theorem tokenChars_cons (t : Token) (a : List Token) :
    tokenChars d parameters (t :: a) = (t.text d parameters).toList ++ tokenChars d parameters a := flatMap_cons

@[simp]
theorem tokenChars_append (a b : List Token) :
    tokenChars d parameters (a ++ b) = tokenChars d parameters a ++ tokenChars d parameters b := flatMap_append

theorem Fragment.toList_text (f : Fragment) : (f.text d parameters).toList = tokenChars d parameters f.tokens := by
  rw [Fragment.text, String.toList_join, tokenChars, flatMap_map]

/-- Where no minus sign starts the second text, minus signs meet in one of the two. -/
theorem doublesMinus_append (hb : (tokenChars d parameters b).head? ≠ some '-') :
    DoublesMinus d parameters (a ++ b) ↔ DoublesMinus d parameters a ∨ DoublesMinus d parameters b := by
  induction a with
  | nil => simp [DoublesMinus]
  | cons t a ih =>
    have hhead : (tokenChars d parameters (a ++ b)).head? = some '-' ↔
        (tokenChars d parameters a).head? = some '-' := by
      rw [tokenChars_append]
      cases tokenChars d parameters a with
      | nil => simpa using hb
      | cons c rest => simp
    rw [cons_append, DoublesMinus, DoublesMinus, hhead, ih, or_assoc]

/-- An empty text between two others changes nothing. -/
theorem doublesMinus_blank :
    DoublesMinus d parameters (a ++ [.raw ""] ++ b) ↔ DoublesMinus d parameters (a ++ b) := by
  have hchars : ∀ a : List Token,
      tokenChars d parameters (a ++ [.raw ""] ++ b) = tokenChars d parameters (a ++ b) := fun a => by
    simp [Token.text]
  induction a with
  | nil => simp [DoublesMinus]
  | cons t a ih =>
    rw [cons_append, cons_append, cons_append, DoublesMinus, DoublesMinus, hchars]
    exact or_congr_right ih

end

/-! ## Readers -/

namespace Fragment

variable (d : Dialect) (parameters : List (String × Value)) (allowed : Prop)

/-- A reader of a text, whose placeholders have plain names, arrives at its end outside of quotes and
comments, or it meets a comment because minus signs meet, which has to be allowed. -/
def ReadsTo (f : Fragment) : Prop := (∀ p ∈ f.placeholders, isPlainName p.1 = true) →
    (Scan.run .plain (tokenChars d parameters f.tokens) ∈ Scan.ends ∧ ¬ DoublesMinus d parameters f.tokens) ∨
      (Scan.run .plain (tokenChars d parameters f.tokens) = .comment ∧ DoublesMinus d parameters f.tokens ∧ allowed)

variable {d parameters allowed}

/-- A text of one token. -/
theorem ReadsTo.single {t : Token} {ps : List (String × Value)}
    (h : Scan.run .plain (t.text d parameters).toList ∈ Scan.ends) : ReadsTo d parameters allowed ⟨[t], ps⟩ :=
  fun _ => .inl ⟨by simpa using h, by simp [DoublesMinus]⟩

theorem ReadsTo.between (hf : ReadsTo d parameters allowed f) (htext : Scan.Resets text)
    (hg : ReadsTo d parameters allowed g) : ReadsTo d parameters allowed (f ++ Fragment.raw text ++ g) := by
  intro hplain
  rw [placeholders_append, forall_mem_append, placeholders_append, forall_mem_append] at hplain
  have hf := hf hplain.1.1
  have hg := hg hplain.2
  obtain ⟨c, rest, hchars, hc⟩ := htext.toList_eq
  have hhead : (tokenChars d parameters ([.raw text] ++ g.tokens)).head? ≠ some '-' := by
    simp [Token.text, hchars, hc]
  -- The text in the middle is no sign of a negation, and it starts with no minus sign.
  have hdoubles : DoublesMinus d parameters (f ++ Fragment.raw text ++ g).tokens ↔
      DoublesMinus d parameters f.tokens ∨ DoublesMinus d parameters g.tokens := by
    have hmiddle : DoublesMinus d parameters ([.raw text] ++ g.tokens) ↔ DoublesMinus d parameters g.tokens := by
      have hne : text ≠ "-" := by
        rintro rfl
        exact absurd htext (by decide)
      simp [DoublesMinus, hne]
    rw [tokens_append, tokens_append, List.append_assoc]
    exact (doublesMinus_append hhead).trans (or_congr_right hmiddle)
  have hrun : Scan.run .plain (tokenChars d parameters (f ++ Fragment.raw text ++ g).tokens) =
      Scan.run (Scan.run (Scan.run .plain (tokenChars d parameters f.tokens)) text.toList)
        (tokenChars d parameters g.tokens) := by
    simp [Fragment.raw, Token.text]
  rw [hdoubles, hrun]
  rcases hf with ⟨hends, hnot⟩ | ⟨hcomment, hdouble, hallowed⟩
  · rw [htext _ hends]
    rcases hg with ⟨hends', hnot'⟩ | ⟨hcomment, hdouble, hallowed⟩
    · exact .inl ⟨hends', fun h => h.elim hnot hnot'⟩
    · exact .inr ⟨hcomment, .inr hdouble, hallowed⟩
  · rw [hcomment, Scan.run_comment, Scan.run_comment]
    exact .inr ⟨rfl, .inl hdouble, hallowed⟩

theorem ReadsTo.blank (h : ReadsTo d parameters allowed (f ++ g)) :
    ReadsTo d parameters allowed (f ++ Fragment.raw "" ++ g) := by
  intro hplain
  have hblank : (f ++ Fragment.raw "" ++ g).tokens = f.tokens ++ [.raw ""] ++ g.tokens := rfl
  have hchars : tokenChars d parameters (f ++ Fragment.raw "" ++ g).tokens =
      tokenChars d parameters (f ++ g).tokens := by
    simp [Fragment.raw, Token.text]
  rw [hchars, hblank, doublesMinus_blank]
  refine h fun p hp => hplain p ?_
  simpa [Fragment.raw, placeholders] using hp

/-- Text can be put together wherever something separates it. -/
theorem readsTo_kept : Kept (ReadsTo d parameters allowed) where
  empty _ := .inl ⟨mem_cons_self, id⟩
  raw h := .single h
  identifier name := .single <| by
    have hclosed : Scan.closed ']' ∈ Scan.ends ∧ Scan.closed '"' ∈ Scan.ends := by decide
    cases d with
    | sqlServer =>
      rw [show Token.text .sqlServer parameters (.identifier name) = Quoted.write '[' ']' name from rfl,
        Scan.run_quoted (q := ']') (by decide)]
      exact hclosed.1
    | postgres =>
      rw [show Token.text .postgres parameters (.identifier name) = Quoted.write '"' '"' name from rfl,
        Scan.run_quoted (q := '"') (by decide)]
      exact hclosed.2
  string text := .single <| by
    rw [Token.text, Scan.run_string]
    decide
  between _ hf htext hg := hf.between htext hg
  blank h := h.blank
  metLike h _ := h

/-- A placeholder with a plain name separates. -/
theorem readsTo_parameter (name : String) (value : Value) : ReadsTo d parameters allowed (.parameter name value) := by
  intro hplain
  have hname : isPlainName name = true := hplain (name, value) (by simp [Fragment.parameter, placeholders])
  refine ReadsTo.single ?_ hplain
  have hcalm : ∀ c ∈ (d.placeholder name (parameterNumber parameters name)).toList, Scan.isCalm c = true := by
    cases d with
    | sqlServer =>
      rw [Dialect.placeholder, String.toList_append]
      exact forall_mem_append.2 ⟨all_eq_true.1 (by decide), all_eq_true.1 hname⟩
    | postgres =>
      rw [Dialect.placeholder, String.toList_append]
      refine forall_mem_append.2 ⟨all_eq_true.1 (by decide), fun c hc => ?_⟩
      exact Scan.isCalm_of_isNumeral (isNumeral_of_mem_toString hc)
  rw [Token.text, Scan.run_plain_of_calm hcalm]
  decide

/-- A minus sign in front of a text. -/
theorem ReadsTo.minus (hf : ReadsTo d parameters allowed f)
    (hallowed : (tokenChars d parameters f.tokens).head? = some '-' → allowed) :
    ReadsTo d parameters allowed (Fragment.raw "-" ++ f) := by
  intro hplain
  have hf := hf fun p hp => hplain p (by simp [hp])
  have htokens : (Fragment.raw "-" ++ f).tokens = .raw "-" :: f.tokens := rfl
  have hrun : Scan.run .plain (tokenChars d parameters (Fragment.raw "-" ++ f).tokens) =
      Scan.run .minus (tokenChars d parameters f.tokens) := by
    have hminus : Scan.run .plain (Token.text d parameters (.raw "-")).toList = .minus := by
      rw [Token.text]
      decide
    rw [htokens, tokenChars_cons, Scan.run_append, hminus]
  have hdoubles : DoublesMinus d parameters (Fragment.raw "-" ++ f).tokens ↔
      (tokenChars d parameters f.tokens).head? = some '-' ∨ DoublesMinus d parameters f.tokens := by
    rw [htokens, DoublesMinus]
    simp
  rw [hrun, hdoubles]
  cases hchars : tokenChars d parameters f.tokens with
  | nil =>
    rw [hchars] at hf
    rcases hf with ⟨-, hnot⟩ | ⟨hcomment, -⟩
    · exact .inl ⟨by decide, by simpa using hnot⟩
    · cases hcomment
  | cons c rest =>
    by_cases hc : c = '-'
    · subst hc
      refine .inr ⟨?_, .inl rfl, hallowed (by rw [hchars]; rfl)⟩
      rw [Scan.run_cons]
      exact Scan.run_comment rest
    · have hstep : Scan.run .minus (c :: rest) = Scan.run .plain (c :: rest) := by
        simp [Scan.step, hc]
      rw [hchars] at hf
      rw [hstep]
      simpa [hc] using hf

end Fragment

/-! ## Operands -/

section

variable (d : Dialect) (parameters : List (String × Value))

/-- A text starts with a character other than a minus sign. -/
def Fragment.Unsigned (f : Fragment) : Prop := ∃ c, (tokenChars d parameters f.tokens).head? = some c ∧ c ≠ '-'

variable {d parameters}

theorem Fragment.Unsigned.append (h : f.Unsigned d parameters) (g : Fragment) : (f ++ g).Unsigned d parameters := by
  obtain ⟨c, hchars, hc⟩ := h
  exact ⟨c, by simp [head?_append, hchars], hc⟩

theorem Fragment.Unsigned.head_ne (h : f.Unsigned d parameters) :
    (tokenChars d parameters f.tokens).head? ≠ some '-' := by
  obtain ⟨c, hchars, hc⟩ := h
  simp [hchars, hc]

theorem Fragment.unsigned_raw (h : Scan.Resets text) : (raw text).Unsigned d parameters := by
  obtain ⟨c, rest, hchars, hc⟩ := h.toList_eq
  exact ⟨c, by simp [raw, Token.text, hchars], hc⟩

/-- Whatever follows a text that separates. -/
theorem Fragment.unsigned_front (h : Scan.Resets text) (rest : List Fragment) :
    (rest.foldl (· ++ ·) (raw text)).Unsigned d parameters := by
  have hfold : ∀ f : Fragment, f.Unsigned d parameters → (rest.foldl (· ++ ·) f).Unsigned d parameters := by
    induction rest with
    | nil => exact fun _ hf => hf
    | cons g rest ih => exact fun f hf => ih (f ++ g) (hf.append g)
  exact hfold _ (unsigned_raw h)

theorem Fragment.unsigned_parens (f : Fragment) : f.parens.Unsigned d parameters := unsigned_front (by decide) [_, _]

theorem Dialect.unsigned_predicateValue (f : Fragment) : (d.predicateValue f).Unsigned d parameters := by
  cases d with
  | sqlServer => exact unsigned_front (by decide) [_, _]
  | postgres => exact unsigned_parens f

theorem Dialect.unsigned_datePart (part : DatePart) (f : Fragment) : (d.datePart part f).Unsigned d parameters := by
  cases d <;> exact unsigned_front (by decide) [_, _, _, _]

theorem Dialect.unsigned_dateAdd (part : DatePart) (f g : Fragment) : (d.dateAdd part f g).Unsigned d parameters := by
  cases d with
  | sqlServer => exact unsigned_front (by decide) [_, _, _, _, _, _]
  | postgres => exact unsigned_parens _

theorem Dialect.unsigned_dateDiff (part : DatePart) (f g : Fragment) : (d.dateDiff part f g).Unsigned d parameters := by
  cases d with
  | sqlServer => exact unsigned_front (by decide) [_, _, _, _, _, _]
  | postgres =>
    cases part with
    | year | day => exact unsigned_front (by decide) [_, _, _, _]
    | month =>
      exact unsigned_front (by decide) [_, _, _, _, _, _]
    | hour | minute | second | millisecond => exact unsigned_front (by decide) [_, _]

/-- The names of functions are words. -/
theorem Dialect.resets_functionName (hname : name ∈ functionNames) :
    Scan.Resets (d.functionName name) := by
  have hresets : ∀ name ∈ functionNames, Scan.Resets (d.functionName name) := by cases d <;> decide
  exact hresets name hname

theorem Form.unsigned_function (hname : name ∈ functionNames) {args : List Form}
    (hf : (Form.function d name args).asValue d = .ok f) : f.Unsigned d parameters := by
  unfold Form.function at hf
  split at hf
  · next text htext =>
    simp only [atom, asValue, pure_eq_ok] at hf
    subst hf
    refine unsigned_raw ?_
    unfold Dialect.niladic? at htext
    split at htext <;> cases htext <;> decide
  · simp only [atom, asValue, bind_eq_ok, pure_eq_ok] at hf
    obtain ⟨g, -, rfl⟩ := hf
    exact (unsigned_raw (d.resets_functionName hname)).append _

theorem Form.unsigned_aggregate {function : AggregateFunction} {arg : Option Form}
    (hf : (Form.aggregate d function arg).asValue d = .ok f) : f.Unsigned d parameters := by
  simp only [Form.aggregate, atom, asValue, bind_eq_ok, pure_eq_ok] at hf
  obtain ⟨g, -, rfl⟩ := hf
  exact (unsigned_raw (by cases d <;> cases function <;> decide)).append _

/-- A condition in the place of a value starts with a parenthesis or a keyword. -/
theorem Form.unsigned_condition {level : Precedence} {text : Result Fragment}
    (hf : (Form.condition level text).asValue d = .ok f) : f.Unsigned d parameters := by
  simp only [asValue, bind_eq_ok, pure_eq_ok] at hf
  obtain ⟨g, -, rfl⟩ := hf
  exact d.unsigned_predicateValue g

/-- A float that carries no sign is written without one. -/
theorem FloatLayout.unsigned_write {x : Float} (hx : isSigned x = false) :
    (raw (query.write x)).Unsigned d parameters := by
  obtain ⟨cs, hcs, htext⟩ := write_query x
  obtain ⟨c, rest, rfl, hc⟩ := hcs.head_ne
  rcases htext with htext | ⟨hsigned, -⟩
  · exact ⟨c, by simp [raw, Token.text, htext], hc⟩
  · rw [hx] at hsigned
    cases hsigned

theorem unsigned_int {n : Int} (hn : 0 ≤ n) : (raw (toString n)).Unsigned d parameters := by
  have htext := toList_toString_int n
  rw [if_pos hn] at htext
  obtain ⟨c, rest, hchars, hc⟩ := (numeral_toDigits n.toNat).head_ne
  refine ⟨c, ?_, hc⟩
  simp only [raw, tokenChars_cons, Token.text, htext, hchars]
  rfl

/-- A literal that is no negative number starts with no minus sign. -/
theorem Form.unsigned_literal {l : Literal} (hl : (Node.literal l).isNegative = false)
    (hf : (literal d l).asValue d = .ok f) : f.Unsigned d parameters := by
  cases l with simp only [literal, atom, asValue, pure_eq_ok] at hf
  | bool b =>
    subst hf
    exact unsigned_raw (by cases d <;> cases b <;> decide)
  | float x =>
    rw [Form.floatText] at hf
    split at hf
    · rw [pure_eq_ok] at hf
      subst hf
      exact FloatLayout.unsigned_write hl
    · exact absurd hf throw_ne_ok
  | null =>
    subst hf
    exact unsigned_raw (by decide)
  | int n =>
    subst hf
    exact unsigned_int (Int.not_lt.1 (of_decide_eq_false hl))
  | string s =>
    subst hf
    exact ⟨Quoted.stringQuote, by simp [Fragment.string, Token.text, Quoted.string, Quoted.write], by decide⟩
  | dateTime t =>
    subst hf
    cases d with
    | sqlServer =>
      exact ⟨Quoted.stringQuote,
        by simp [raw, Token.text, Dialect.dateTime, Quoted.string, Quoted.write], by decide⟩
    | postgres =>
      exact ⟨'T', by simp [raw, Token.text, Dialect.dateTime, String.toList_append], by decide⟩

theorem unsigned_alias (a : Alias) : (raw a.text).Unsigned d parameters :=
  ⟨'a', by simp [raw, Token.text, Alias.text, String.toList_append], by decide⟩

theorem unsigned_placeholder (name : String) (value : Value) :
    (Fragment.parameter name value).Unsigned d parameters := by
  cases d with
  | sqlServer =>
    exact ⟨'@', by simp [Fragment.parameter, Token.text, Dialect.placeholder, String.toList_append], by decide⟩
  | postgres =>
    exact ⟨'$', by simp [Fragment.parameter, Token.text, Dialect.placeholder, String.toList_append], by decide⟩

/-- What holds together as strongly as a negation starts with a minus sign only if it is a negation or a
negative number. -/
theorem Sql.Node.unsigned_value (he : e.KnownCall) (hneg : e.isNegative = false)
    (hlevel : ¬ (e.form d).valueLevel.rank < Precedence.unary.rank) (hf : (e.form d).asValue d = .ok f) :
    f.Unsigned d parameters := by
  cases e with rw [Node.form] at hf
  | column a name =>
    simp only [atom, asValue, pure_eq_ok] at hf
    subst hf
    exact ((unsigned_alias a).append _).append _
  | literal l =>
    exact Form.unsigned_literal hneg hf
  | parameter name v =>
    simp only [atom, asValue, pure_eq_ok] at hf
    subst hf
    exact unsigned_placeholder name v
  | binary op l r =>
    rw [Form.binary] at hf
    rw [Node.form, Form.binary] at hlevel
    split at hf
    · exact Form.unsigned_condition hf
    · next hop =>
      have hrank : (Precedence.ofOperator op).rank < Precedence.unary.rank := by cases op <;> decide
      rw [if_neg hop] at hlevel
      exact absurd hrank hlevel
  | unary op e =>
    cases op with
    | not =>
      rw [Form.unary] at hf
      exact Form.unsigned_condition hf
    | minus => cases hneg
  | isNull e negated =>
    rw [Form.nullTest] at hf
    exact Form.unsigned_condition hf
  | inValues e vs negated =>
    rw [Form.membership] at hf
    split at hf <;> exact Form.unsigned_condition hf
  | existence q =>
    exact Form.unsigned_condition hf
  | choice t a b =>
    simp only [Form.choice, atom, asValue, bind_eq_ok, pure_eq_ok] at hf
    obtain ⟨x, -, y, -, z, -, rfl⟩ := hf
    exact unsigned_front (by decide) [_, _, _, _, _, _]
  | function name args =>
    exact Form.unsigned_function (he name args rfl) hf
  | aggregate function arg =>
    exact Form.unsigned_aggregate hf
  | cast e type =>
    simp only [Form.cast, atom, asValue, bind_eq_ok, pure_eq_ok] at hf
    obtain ⟨x, -, rfl⟩ := hf
    exact unsigned_front (by decide) [_, _, _, _]
  | datePart part e =>
    simp only [Form.datePart, atom, asValue, bind_eq_ok, pure_eq_ok] at hf
    obtain ⟨x, -, rfl⟩ := hf
    exact d.unsigned_datePart part x
  | dateAdd part a e =>
    simp only [Form.dateAdd, atom, asValue, bind_eq_ok, pure_eq_ok] at hf
    obtain ⟨x, -, y, -, rfl⟩ := hf
    exact d.unsigned_dateAdd part x y
  | dateDiff part a b =>
    simp only [Form.dateDiff, atom, asValue, bind_eq_ok, pure_eq_ok] at hf
    obtain ⟨x, -, y, -, rfl⟩ := hf
    exact d.unsigned_dateDiff part x y
  | list _ | subquery _ | derived _ =>
    simp only [atom, asValue, bind_eq_ok, pure_eq_ok] at hf
    obtain ⟨x, -, rfl⟩ := hf
    exact unsigned_parens x
  | composite _ | placeholder | table _ | select _ | union _ | source _ | grouping _ _ | rows _ | update _ | delete _ =>
    exact absurd hf throw_ne_ok

/-- The operand of a negation starts with a minus sign only if it is a negation or a negative number: what
holds together less is put in parentheses. -/
theorem Sql.Node.isNegative_of_operand (he : e.KnownCall)
    (hf : (e.form d).operand d .unary false = .ok f) (hhead : (tokenChars d parameters f.tokens).head? = some '-') :
    e.isNegative = true := by
  simp only [Form.operand, bind_eq_ok, pure_eq_ok, Bool.false_and, Bool.or_false] at hf
  obtain ⟨g, hg, rfl⟩ := hf
  by_contra hneg
  rw [Bool.not_eq_true] at hneg
  refine absurd hhead (Fragment.Unsigned.head_ne ?_)
  split
  · exact unsigned_parens g
  · next hlevel => exact unsigned_value he hneg (of_decide_eq_false (by simpa using hlevel)) hg

end

/-! ## Compiled statements -/

/-- Readers of the texts of a tree in which double negations are allowed. -/
theorem Sql.writes_readsTo (d : Dialect) (parameters : List (String × Value)) (allowed : Prop) :
    Writes d (fun n => n.KnownCall ∧ (n.isDoubleNegation = true → allowed))
      (Fragment.ReadsTo d parameters allowed) where
  toKept := readsTo_kept
  parameter _ := readsTo_parameter _ _
  function {name args} h := readsTo_kept.raw (d.resets_functionName (h.1 name args rfl)).lands
  minus {e f} h hf hreads := by
    have he : e.KnownCall := (h.operand rfl (mem_singleton_self e)).root.1
    exact hreads.minus fun hhead => h.root.2 (e.isNegative_of_operand he hf hhead)

theorem mem_names_firstOfName {parameters : List (String × Value)} {p : String × Value} (hp : p ∈ parameters) :
    ∃ q ∈ firstOfName parameters, q.1 = p.1 := by
  obtain ⟨value, hvalue⟩ := exists_lookup hp
  rw [← lookup_firstOfName] at hvalue
  exact ⟨(p.1, value), mem_of_lookup hvalue, rfl⟩

/-- Comments in the text of a compiled query whose parameters have plain names. A reader of the text meets
a comment exactly if the sign of a negation stands in front of another minus sign, which happens only if
the statement negates a negation or a negative number. Where no comment starts, all quotes are closed. -/
theorem opensComment_iff_doublesMinus (c : Compiler) (e : Expr) (r : Rendered) (h : c.compile e = .ok r)
    (hnames : ∀ p ∈ r.parameters, isPlainName p.1 = true) :
    ∃ (s : Statement) (f : Fragment), c.statement e = .ok s ∧ s.fragment c.options.dialect = .ok f ∧
      r.sql = f.text c.options.dialect r.parameters ∧
      (Scan.OpensComment r.sql ↔ DoublesMinus c.options.dialect r.parameters f.tokens) ∧
      (Scan.OpensComment r.sql → ∃ n ∈ s.nodes, ∃ m : Node, m.Within n ∧ m.isDoubleNegation = true) ∧
      (¬ Scan.OpensComment r.sql → Scan.Lands r.sql) := by
  simp only [Compiler.compile, Statement.render, bind_eq_ok, pure_eq_ok] at h
  obtain ⟨s, hs, f, hf, rfl⟩ := h
  refine ⟨s, f, hs, hf, rfl, ?_⟩
  have hplain : ∀ p ∈ f.placeholders, isPlainName p.1 = true := by
    intro p hp
    have hmet := ((s.fragment_writtenFrom c.options.dialect hf).met p).1 hp
    obtain ⟨q, hq, hname⟩ := mem_names_firstOfName hmet
    rw [← hname]
    exact hnames q hq
  have hall : s.All fun n => n.KnownCall ∧ (n.isDoubleNegation = true →
      ∃ n ∈ s.nodes, ∃ m : Node, m.Within n ∧ m.isDoubleNegation = true) :=
    fun n hn m hm => ⟨c.knownCalls hs n hn m hm, fun hdouble => ⟨n, hn, m, hm, hdouble⟩⟩
  have hreads := s.holds_fragment (writes_readsTo c.options.dialect (firstOfName f.parameters) _) hall hf hplain
  rw [← toList_text] at hreads
  rcases hreads with ⟨hends, hnot⟩ | ⟨hcomment, hdouble, hexists⟩
  · have hopens : ¬ Scan.OpensComment (f.text c.options.dialect (firstOfName f.parameters)) := by
      intro hcomment
      rw [hcomment] at hends
      exact absurd hends (by decide)
    exact ⟨iff_of_false hopens hnot, fun h => absurd h hopens, fun _ => hends⟩
  · exact ⟨iff_of_true hcomment hdouble, fun _ => hexists, fun h => absurd hcomment h⟩

namespace Sample

/-- The names of the students whose age, negated twice, is above a captured number. -/
def olderThan : Expr :=
  (((Query.ofEntity "Student").filter "x" fun x =>
    .binaryOf .greaterThan (.negateOf (.negateOf (x.memberOf "Age" .int))) (.capturedOf "age" (.int 20))).select
      "x" .string (·.memberOf "Name" .string)).expr

/-- The text for these students. -/
def olderThanText : String := "SELECT a1.[FullName] AS [FullName] FROM [Student] AS a1 WHERE --a1.[Age] > @age"

/-- The two signs open a comment, and the condition on the rows is lost to a reader of the text. -/
theorem olderThan_opensComment : ∃ r s f, studentCompiler.compile olderThan = .ok r ∧
    r.sql = olderThanText ∧ (∀ p ∈ r.parameters, isPlainName p.1 = true) ∧ Scan.OpensComment r.sql ∧
    studentCompiler.statement olderThan = .ok s ∧ s.fragment studentCompiler.options.dialect = .ok f ∧
    DoublesMinus studentCompiler.options.dialect r.parameters f.tokens ∧
    ∃ n ∈ s.nodes, ∃ m : Node, m.Within n ∧ m.isDoubleNegation = true := by
  obtain ⟨r, hr, hsql, hplain⟩ : ∃ r, studentCompiler.compile olderThan = .ok r ∧ r.sql = olderThanText ∧
      ∀ p ∈ r.parameters, isPlainName p.1 = true := exists_ok (by decide +kernel)
  have hopens : Scan.OpensComment r.sql := by
    rw [hsql]
    decide +kernel
  obtain ⟨s, f, hs, hf, -, hiff, hnode, -⟩ := opensComment_iff_doublesMinus _ _ r hr hplain
  exact ⟨r, s, f, hr, hsql, hplain, hopens, hs, hf, hiff.1 hopens, hnode hopens⟩

end Sample

end QueryLowering
