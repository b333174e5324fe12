import QueryLowering.Datum.Json
import QueryLowering.Proofs.Numerals
import QueryLowering.Proofs.Scanners

/-!
# JSON texts are read back

The compact text of a value is read as that value: strings because what stands behind a backslash is read
as the character it is written for, integers because they fit into 64 bits, lists and records because no
value starts with a blank, a comma or a closing bracket. How floats are written is a parameter of the
writer, and that their texts are read back is an assumption on it.

## Main results

* `Json.run_stringRest`: strings are read back.
* `Json.run_number`: integers are read back.
* `Json.parse?_write`: values are read back.
-/

namespace QueryLowering

open List

variable {c close : Char} {rest cs : List Char} {float : Float → String} {d : Datum} {fuel : Nat} {p : Char → Bool}

namespace Json

open Scanner

/-! ## Strings -/

theorem digitValue?_hexDigit : ∀ d, d < 16 → digitValue? (hexDigit d) = some d := by
  decide

theorem run_unit16 {a b : Nat} (ha : a < 16) (hb : b < 16) :
    unit16.run ('0' :: '0' :: hexDigit a :: hexDigit b :: rest) = some (a * 16 + b, rest) := by
  have hdigits : (takeUpTo 4 fun c => (digitValue? c).isSome).run
      (['0', '0', hexDigit a, hexDigit b] ++ rest) = some (['0', '0', hexDigit a, hexDigit b], rest) := by
    refine run_takeUpTo ?_ (Nat.le_refl 4) fun _ h => by simp at h
    simp only [forall_mem_cons, digitValue?_hexDigit _ ha, digitValue?_hexDigit _ hb]
    exact ⟨by decide, by decide, rfl, rfl, forall_mem_nil _⟩
  rw [unit16,
    show ('0' :: '0' :: hexDigit a :: hexDigit b :: rest) = ['0', '0', hexDigit a, hexDigit b] ++ rest from rfl,
    run_bind_of hdigits]
  have hvalue : digitsValue 16 ['0', '0', hexDigit a, hexDigit b] = a * 16 + b := by
    simp [digitsValue, digitValue?_hexDigit _ ha, digitValue?_hexDigit _ hb, show digitValue? '0' = some 0 by decide]
  rw [hvalue]
  rfl

theorem run_escape_u (hc : c.toNat < 0x20) :
    escape.run ('u' :: '0' :: '0' :: hexDigit (c.toNat / 16) :: hexDigit (c.toNat % 16) :: rest) = some (c, rest) := by
  have hvalue : c.toNat / 16 * 16 + c.toNat % 16 = c.toNat := by omega
  rw [escape, run_bind_of (run_satisfy rfl)]
  simp only [unicodeEscape]
  rw [run_bind_of (run_unit16 (by omega) (by omega)), hvalue, if_neg (by omega)]
  have hrequire : (!decide (0xDC00 ≤ c.toNat ∧ c.toNat < 0xE000)) = true := by
    rw [decide_eq_false (by omega)]
    rfl
  rw [run_bind_of (run_require hrequire), Char.ofNat_toNat]
  rfl

/-- A character is written as itself or behind a backslash as what stands for it there. -/
theorem escaped_cases (c : Char) :
    escaped c = [c] ∧ 0x20 ≤ c.toNat ∧ c ≠ '"' ∧ c ≠ '\\' ∨
      ∃ cs, escaped c = '\\' :: cs ∧ ∀ rest, escape.run (cs ++ rest) = some (c, rest) := by
  fun_cases escaped c with
  | case1 h | case2 _ h | case3 _ _ h | case4 _ _ _ h | case5 _ _ _ _ h | case6 _ _ _ _ _ h | case7 _ _ _ _ _ _ h =>
    obtain rfl := beq_iff_eq.1 h
    exact .inr ⟨_, rfl, fun rest => rfl⟩
  | case8 _ _ _ _ _ _ _ h => exact .inr ⟨_, rfl, fun rest => run_escape_u h⟩
  | case9 hquote hslash _ _ _ _ _ h =>
    exact .inl ⟨rfl, Nat.not_lt.1 h, fun heq => hquote (beq_iff_eq.2 heq), fun heq => hslash (beq_iff_eq.2 heq)⟩

theorem run_stringRest {text read : List Char} (hfuel : text.length < fuel) :
    (stringRest fuel read).run (text.flatMap escaped ++ '"' :: rest) =
      some (String.ofList (read.reverse ++ text), rest) := by
  induction text generalizing fuel read with
  | nil =>
    obtain ⟨fuel, rfl⟩ : ∃ k, fuel = k + 1 := ⟨fuel - 1, by simp at hfuel; omega⟩
    rw [stringRest, flatMap_nil, nil_append, run_bind_of (run_satisfy (by decide)), append_nil]
    rfl
  | cons c text ih =>
    rw [length_cons] at hfuel
    obtain ⟨fuel, rfl⟩ : ∃ k, fuel = k + 1 := ⟨fuel - 1, by omega⟩
    have hih : (stringRest fuel (c :: read)).run (text.flatMap escaped ++ '"' :: rest) =
        some (String.ofList (read.reverse ++ c :: text), rest) := by
      rw [ih (by omega), reverse_cons, append_assoc, singleton_append]
    rw [stringRest, flatMap_cons, append_assoc]
    rcases escaped_cases c with ⟨hself, hle, hquote, hslash⟩ | ⟨cs, hescaped, hescape⟩
    · rw [hself, singleton_append, run_bind_of (run_satisfy (by simpa using hle)), if_neg (by simpa using hquote),
        if_neg (by simpa using hslash), hih]
    · rw [hescaped, cons_append, run_bind_of (run_satisfy (by decide)), if_neg (by decide), if_pos (by decide),
        run_bind_of (hescape _), hih]

/-! ## Numbers -/

/-- What may follow a value: the end of the text, or a character that ends the value. -/
def Delimits (rest : List Char) : Prop := Ends (fun c => !(c == ',' || c == ']' || c == '\x7d')) rest

theorem Delimits.ends (h : Delimits rest) (hp : p ',' = false ∧ p ']' = false ∧ p '\x7d' = false) :
    Ends p rest := by
  intro c hc
  have hc := h c hc
  simp only [Bool.not_eq_false', Bool.or_eq_true, beq_iff_eq] at hc
  rcases hc with (rfl | rfl) | rfl
  · exact hp.1
  · exact hp.2.1
  · exact hp.2.2

theorem le_ofDigitChars (ds : List Char) (n : Nat) : n ≤ Nat.ofDigitChars 10 ds n := by
  induction ds generalizing n with
  | nil => simp
  | cons d ds ih =>
    rw [Nat.ofDigitChars_cons]
    exact Nat.le_trans (by omega) (ih _)

theorem ofWhole_eq {ds : List Char} (hds : ∀ c ∈ ds, c.isDigit = true)
    (h : Nat.ofDigitChars 10 ds 0 ≤ 0xffffffffffffffff) :
    Significand.ofWhole ds = ⟨Nat.ofDigitChars 10 ds 0, 0, false⟩ := by
  have hfold : ∀ n, Nat.ofDigitChars 10 ds n ≤ 0xffffffffffffffff →
      ds.foldl (fun s c => Significand.pushWhole s ((digitValue? c).getD 0)) (⟨n, 0, false⟩ : Significand) =
        ⟨Nat.ofDigitChars 10 ds n, 0, false⟩ := by
    clear h
    induction ds with
    | nil => intro n _; simp
    | cons d ds ih =>
      intro n hn
      rw [forall_mem_cons] at hds
      rw [Nat.ofDigitChars_cons] at hn ⊢
      have hle := le_ofDigitChars ds (10 * n + (d.toNat - '0'.toNat))
      have hpush : Significand.pushWhole ⟨n, 0, false⟩ ((digitValue? d).getD 0) =
          ⟨10 * n + (d.toNat - '0'.toNat), 0, false⟩ := by
        have hfits : n * 10 + (d.toNat - '0'.toNat) ≤ 0xffffffffffffffff := by omega
        rw [digitValue_of_isDigit hds.1]
        generalize d.toNat - '0'.toNat = digit at hfits
        simp [Significand.pushWhole, Significand.fits, hfits, Nat.mul_comm]
      rw [foldl_cons, hpush]
      exact ih hds.2 _ hn
  exact hfold 0 h

theorem head?_append_of_ne_nil {α : Type} {l l' : List α} (h : l ≠ []) : (l ++ l').head? = l.head? := by
  cases l with
  | nil => exact absurd rfl h
  | cons a l => rfl

/-- Only zero is written with a zero in front. -/
theorem head_toDigits (n : Nat) : (Nat.toDigits 10 n).length = 1 ∨ (Nat.toDigits 10 n).head? ≠ some '0' := by
  induction n using Nat.strongRecOn with
  | _ n ih =>
    rw [Nat.toDigits_eq_if (by decide)]
    split
    · exact .inl rfl
    · next hn =>
      right
      rw [head?_append_of_ne_nil Nat.toDigits_ne_nil]
      rcases ih (n / 10) (by omega) with hlength | hhead
      · rw [Nat.toDigits_eq_if (by decide)] at hlength ⊢
        split at hlength
        · next hlt =>
          rw [if_pos hlt]
          have hpos : 0 < n / 10 := by omega
          generalize n / 10 = k at hlt hpos
          revert k
          decide
        · simp at hlength
      · exact hhead

theorem run_whole (n : Nat) (hrest : Ends Char.isDigit rest) :
    whole.run (Nat.toDigits 10 n ++ rest) = some (Nat.toDigits 10 n, rest) := by
  have hdigits : Scanner.digits.run (Nat.toDigits 10 n ++ rest) = some (Nat.toDigits 10 n, rest) :=
    run_takeWhile1 Nat.toDigits_ne_nil (fun c hc => Nat.isDigit_of_mem_toDigits (by decide) (by decide) hc) hrest
  rw [whole, run_bind_of hdigits]
  have hrequire : ((Nat.toDigits 10 n).length == 1 || (Nat.toDigits 10 n).head? != some '0') = true := by
    simpa using head_toDigits n
  rw [run_bind_of (run_require hrequire)]
  rfl

theorem run_number (n : Int) (hn : isWord n = true) (hrest : Delimits rest) :
    number.run ((toString n).toList ++ rest) = some (.int n, rest) := by
  have hdigit : Ends Char.isDigit rest := hrest.ends (by decide)
  rw [isWord_iff] at hn
  have hwhole : ∀ k : Nat, k ≤ 0xffffffffffffffff → Significand.ofWhole (Nat.toDigits 10 k) = ⟨k, 0, false⟩ := by
    intro k hk
    rw [ofWhole_eq (fun c hc => Nat.isDigit_of_mem_toDigits (by decide) (by decide) hc)] <;>
      rw [Nat.ofDigitChars_ten_toDigits]
    exact hk
  have hpoint : (Scanner.optional (char '.')).run rest = some (none, rest) :=
    run_optional_none (run_char_none (hrest.ends (by decide)))
  have hmark : (accepts (char 'e' <|> char 'E')).run rest = some (false, rest) := by
    have he : (char 'e').run rest = none := run_char_none (hrest.ends (by decide))
    have hE : (char 'E').run rest = none := run_char_none (hrest.ends (by decide))
    refine run_accepts_none ?_
    simp [he, hE]
  rw [toList_toString_int]
  split
  · next h0 =>
    have hminus : (accepts (char '-')).run (Nat.toDigits 10 n.toNat ++ rest) =
        some (false, Nat.toDigits 10 n.toNat ++ rest) := by
      refine run_accepts_none (run_char_none fun c hc => ?_)
      rw [head?_append_of_ne_nil Nat.toDigits_ne_nil] at hc
      have hdigit := Nat.isDigit_of_mem_toDigits (by decide) (by decide) (mem_of_mem_head? hc)
      rw [beq_eq_false_iff_ne]
      rintro rfl
      exact absurd hdigit (by decide)
    rw [number, run_bind_of hminus, run_bind_of (run_whole _ hdigit), run_bind_of hpoint, hwhole _ (by omega)]
    simp only [Option.isSome_none, Bool.false_eq_true, ↓reduceIte, pure_bind]
    rw [run_bind_of hmark]
    simp
    omega
  · next h0 =>
    rw [number, cons_append, run_bind_of (run_accepts_char _ _), run_bind_of (run_whole _ hdigit),
      run_bind_of hpoint, hwhole _ (by omega)]
    simp only [Option.isSome_none, Bool.false_eq_true, ↓reduceIte, pure_bind]
    rw [run_bind_of hmark]
    have hword : isWord n = true := (isWord_iff n).2 hn
    have hvalue : -(((-n).toNat : Nat) : Int) = n := by omega
    have hpos : ((-n).toNat == 0) = false := by
      rw [beq_eq_false_iff_ne]
      omega
    simp only [Bool.false_eq_true, ↓reduceIte, Bool.not_true, hpos, Bool.or_self, hvalue, hword]
    rfl

/-! ## Values -/

/-- The reader takes the text of a float as that float where a value may stand. -/
structure ReadsBack (float : Float → String) (x : Float) : Prop where
  starts : ∃ c cs, (float x).toList = c :: cs ∧ (c.isDigit = true ∨ c = '-')
  reads : ∀ rest, Delimits rest → number.run ((float x).toList ++ rest) = some (.float x, rest)

/-- A value that can be read back from its text: integers fit into 64 bits, and the text of each float is
read as that float. -/
inductive Readable (float : Float → String) : Datum → Prop
  | null : Readable float .null
  | bool (b : Bool) : Readable float (.bool b)
  | int {n : Int} : isWord n = true → Readable float (.int n)
  | float {x : Float} : ReadsBack float x → Readable float (.float x)
  | string (s : String) : Readable float (.string s)
  | list {items : List Datum} : (∀ d ∈ items, Readable float d) → Readable float (.list items)
  | record {entries : List (String × Datum)} : (∀ x ∈ entries, Readable float x.2) → Readable float (.record entries)

theorem toList_quoted (s : String) : (quoted s).toList = '"' :: (s.toList.flatMap escaped ++ ['"']) := by
  simp [quoted]

theorem writeItems_eq (items : List Datum) : writeItems float items = items.map (write float) := by
  induction items with
  | nil => rfl
  | cons d rest ih => rw [writeItems, ih, map_cons]

/-- The text of an entry of a record. -/
def entryText (float : Float → String) (x : String × Datum) : String := quoted x.1 ++ ":" ++ write float x.2

theorem writeEntries_eq (entries : List (String × Datum)) :
    writeEntries float entries = entries.map (entryText float) := by
  induction entries with
  | nil => rfl
  | cons x rest ih => rw [writeEntries, ih, map_cons, entryText]

theorem run_blanks (hrest : Ends isBlank rest) : blanks.run rest = some ((), rest) := run_skip hrest

/-- The characters that a written value may start with. -/
def starts (c : Char) : Bool := c.isDigit || ['-', '"', '[', '\x7b', 'n', 't', 'f'].contains c

theorem starts_of_number (hc : c.isDigit = true ∨ c = '-') : starts c = true := by
  rcases hc with hc | rfl
  · rw [starts, hc, Bool.true_or]
  · decide

/-- A text starts as a written value may start. -/
def Opens (text : String) : Prop := ∃ c cs, text.toList = c :: cs ∧ starts c = true

theorem exists_toString_int (n : Int) : ∃ c cs, (toString n).toList = c :: cs ∧ (c.isDigit = true ∨ c = '-') := by
  rw [toList_toString_int]
  split
  · obtain ⟨c, cs, hcs⟩ := exists_cons_of_ne_nil (Nat.toDigits_ne_nil (n := n.toNat) (b := 10))
    have hc : c ∈ Nat.toDigits 10 n.toNat := hcs ▸ mem_cons_self
    exact ⟨c, cs, hcs, .inl (Nat.isDigit_of_mem_toDigits (by decide) (by decide) hc)⟩
  · exact ⟨'-', _, rfl, .inr rfl⟩

theorem Readable.opens (hd : Readable float d) : Opens (write float d) := by
  cases hd with
  | null => exact ⟨'n', "ull".toList, by simp [write], by decide⟩
  | bool b =>
    cases b with
    | false => exact ⟨'f', "alse".toList, by simp [write], by decide⟩
    | true => exact ⟨'t', "rue".toList, by simp [write], by decide⟩
  | @int n _ =>
    obtain ⟨c, cs, hcs, hc⟩ := exists_toString_int n
    exact ⟨c, cs, by rw [write, hcs], starts_of_number hc⟩
  | float hx =>
    obtain ⟨c, cs, hcs, hc⟩ := hx.starts
    exact ⟨c, cs, by rw [write, hcs], starts_of_number hc⟩
  | string s => exact ⟨'"', _, by rw [write, toList_quoted], by decide⟩
  | list _ => exact ⟨'[', _, by simp only [write, String.toList_append, append_assoc]; rfl, by decide⟩
  | record _ => exact ⟨'\x7b', _, by simp only [write, String.toList_append, append_assoc]; rfl, by decide⟩

theorem isBlank_of_starts (hc : starts c = true) : isBlank c = false := by
  rw [Bool.eq_false_iff]
  intro hblank
  simp only [isBlank, Bool.or_eq_true, beq_iff_eq] at hblank
  rcases hblank with ((rfl | rfl) | rfl) | rfl <;> exact absurd hc (by decide)

theorem Opens.ends {text : String} (h : Opens text) (hp : ∀ c, starts c = true → p c = false) :
    Ends p (text.toList ++ rest) := by
  obtain ⟨c, cs, hcs, hc⟩ := h
  rw [hcs]
  exact Ends.cons (hp c hc)

theorem Opens.intercalate {texts : List String} (hne : texts ≠ []) (h : ∀ t ∈ texts, Opens t) :
    Opens (",".intercalate texts) := by
  cases texts with
  | nil => exact absurd rfl hne
  | cons t texts =>
    obtain ⟨c, cs, hcs, hc⟩ := (forall_mem_cons.1 h).1
    cases texts with
    | nil => exact ⟨c, cs, by rw [String.intercalate_singleton, hcs], hc⟩
    | cons t' texts =>
      refine ⟨c, cs ++ (",".toList ++ (",".intercalate (t' :: texts)).toList), ?_, hc⟩
      rw [String.intercalate_cons_cons, String.toList_append, String.toList_append, hcs, append_assoc]
      rfl

theorem length_le_flatMap_escaped (cs : List Char) : cs.length ≤ (cs.flatMap escaped).length := by
  induction cs with
  | nil => exact Nat.le_refl 0
  | cons c cs ih =>
    have hc : 1 ≤ (escaped c).length := by
      rcases escaped_cases c with ⟨hc, -⟩ | ⟨_, hc, -⟩
      · simp [hc]
      · simp [hc]
    rw [flatMap_cons, length_append, length_cons]
    omega

theorem length_quoted (s : String) : s.toList.length + 2 ≤ (quoted s).length := by
  have h := length_le_flatMap_escaped s.toList
  rw [← String.length_toList, toList_quoted]
  simp only [length_cons, length_append, length_nil]
  omega

/-- A value is read back from its text. -/
def Reads (float : Float → String) (d : Datum) : Prop :=
  ∀ fuel rest, 2 * (write float d).length ≤ fuel → Delimits rest →
    (value fuel).run ((write float d).toList ++ rest) = some (d, rest)

/-- Written elements with commas between them are read up to the closing character. -/
theorem run_sequence {α : Type} {element : Nat → Scanner α} {sequence : Nat → Scanner (List α)}
    {text : α → String} (hclose : close = ']' ∨ close = '\x7d') (hsequence : ∀ fuel, sequence (fuel + 1) = do
      let x ← element fuel
      blanks
      if ← accepts (char ',') then
        blanks
        return x :: (← sequence fuel)
      else
        char close
        return [x]) {xs : List α} (hne : xs ≠ []) (hopens : ∀ x ∈ xs, Opens (text x))
    (h : ∀ x ∈ xs, ∀ fuel rest, 2 * (text x).length ≤ fuel → Delimits rest →
      (element fuel).run ((text x).toList ++ rest) = some (x, rest))
    {fuel : Nat} (hfuel : 2 * (",".intercalate (xs.map text)).length < fuel) :
    (sequence fuel).run ((",".intercalate (xs.map text)).toList ++ close :: rest) = some (xs, rest) := by
  have hend : ∀ {p : Char → Bool}, p ']' = false → p '\x7d' = false → Ends p (close :: rest) := by
    intro p hlist hrecord
    rcases hclose with rfl | rfl
    · exact Ends.cons hlist
    · exact Ends.cons hrecord
  induction xs generalizing fuel with
  | nil => exact absurd rfl hne
  | cons x xs ih =>
    rw [forall_mem_cons] at h hopens
    obtain ⟨fuel, rfl⟩ : ∃ k, fuel = k + 1 := ⟨fuel - 1, by omega⟩
    cases xs with
    | nil =>
      simp only [map_cons, map_nil, String.intercalate_singleton] at hfuel ⊢
      rw [hsequence, run_bind_of (h.1 fuel (close :: rest) (by omega) (hend (by decide) (by decide))),
        run_bind_of (run_blanks (hend (by decide) (by decide))),
        run_bind_of (run_accepts_none (run_char_none (hend (by decide) (by decide))))]
      simp only [Bool.false_eq_true, ↓reduceIte]
      rw [run_bind_of (run_char _ _)]
      rfl
    | cons y xs =>
      rw [map_cons, map_cons, String.intercalate_cons_cons, ← map_cons] at hfuel ⊢
      simp only [String.length_append, show ",".length = 1 from rfl] at hfuel
      have hrest : (sequence fuel).run ((",".intercalate ((y :: xs).map text)).toList ++ close :: rest) =
          some (y :: xs, rest) := ih (cons_ne_nil _ _) hopens.2 h.2 (by omega)
      have hnext : Opens (",".intercalate ((y :: xs).map text)) :=
        .intercalate (cons_ne_nil _ _) (forall_mem_map.2 hopens.2)
      rw [String.toList_append, String.toList_append, append_assoc, append_assoc, hsequence,
        show ",".toList = [','] from rfl, singleton_append,
        run_bind_of (h.1 fuel _ (by omega) (Ends.cons (by decide))),
        run_bind_of (run_blanks (Ends.cons (by decide))), run_bind_of (run_accepts_char _ _)]
      simp only [↓reduceIte]
      rw [run_bind_of (run_blanks (hnext.ends fun c hc => isBlank_of_starts hc)), run_bind_of hrest]
      rfl

/-- An entry of a record. -/
def entry (fuel : Nat) : Scanner (String × Datum) := do
  Scanner.char '"'
  let name ← stringRest (fuel + 1) []
  blanks
  Scanner.char ':'
  blanks
  let d ← value fuel
  return (name, d)

theorem entries_succ (fuel : Nat) : entries (fuel + 1) = do
    let x ← entry fuel
    blanks
    if ← accepts (char ',') then
      blanks
      return x :: (← entries fuel)
    else
      char '\x7d'
      return [x] := by
  rw [entries, entry]
  simp only [bind_assoc, pure_bind]

theorem run_string (s : String) (hfuel : s.toList.length < fuel) :
    (stringRest fuel []).run (s.toList.flatMap escaped ++ '"' :: rest) = some (s, rest) := by
  rw [run_stringRest hfuel, reverse_nil, nil_append, String.ofList_toList]

theorem run_entry {x : String × Datum} (hreadable : Readable float x.2) (h : Reads float x.2)
    (hfuel : 2 * (entryText float x).length ≤ fuel) (hrest : Delimits rest) :
    (entry fuel).run ((entryText float x).toList ++ rest) = some (x, rest) := by
  have hlength := length_quoted x.1
  simp only [entryText, String.length_append] at hfuel
  have hcolon : ∀ cs, blanks.run (':' :: cs) = some ((), ':' :: cs) := fun cs => run_blanks (Ends.cons (by decide))
  have htext : (entryText float x).toList ++ rest = '"' :: (x.1.toList.flatMap escaped ++
      '"' :: ':' :: ((write float x.2).toList ++ rest)) := by
    simp [entryText, toList_quoted]
  rw [htext, entry, run_bind_of (run_char _ _), run_bind_of (run_string x.1 (by omega)), run_bind_of (hcolon _),
    run_bind_of (run_char _ _), run_bind_of (run_blanks (hreadable.opens.ends fun c hc => isBlank_of_starts hc)),
    run_bind_of (h fuel rest (by omega) hrest)]
  rfl

theorem opens_entryText (x : String × Datum) : Opens (entryText float x) := by
  refine ⟨'"', x.1.toList.flatMap escaped ++ '"' :: ':' :: (write float x.2).toList, ?_, by decide⟩
  simp [entryText, toList_quoted]

/-- How a value is read that starts with a quote, a bracket or a brace. -/
theorem run_value_cons (fuel : Nat) (cs : List Char) :
    (value (fuel + 1)).run ('"' :: cs) = (do return .string (← stringRest (fuel + 1) []) : Scanner Datum).run cs ∧
    (value (fuel + 1)).run ('[' :: cs) = (do
      blanks
      if ← accepts (char ']') then return .list []
      else return .list (← items fuel) : Scanner Datum).run cs ∧
    (value (fuel + 1)).run ('\x7b' :: cs) = (do
      blanks
      if ← accepts (char '\x7d') then return .record []
      else return .record (← entries fuel) : Scanner Datum).run cs := by
  rw [value]
  refine ⟨?_, ?_, ?_⟩ <;> rw [run_bind_of (run_peek _), head?_cons] <;> exact run_bind_of (run_char _ _)

/-- A bound on the depth of reading a value is positive. -/
theorem exists_succ (hd : Readable float d) (hfuel : 2 * (write float d).length ≤ fuel) : ∃ k, fuel = k + 1 := by
  obtain ⟨c, cs, hcs, -⟩ := hd.opens
  rw [← String.length_toList, hcs, length_cons] at hfuel
  exact ⟨fuel - 1, by omega⟩

theorem run_value_number (hc : c.isDigit = true ∨ c = '-') (fuel : Nat) (cs : List Char) :
    (value (fuel + 1)).run (c :: cs) = number.run (c :: cs) := by
  rw [value, run_bind_of (run_peek _), head?_cons]
  -- A digit or a sign is none of the characters that start another value.
  split
  all_goals first
    | rfl
    | (next h =>
        obtain rfl := Option.some.inj h
        exact absurd hc (by decide))

theorem run_value_string (s : String) (hfuel : s.toList.length ≤ fuel) :
    (value (fuel + 1)).run ((quoted s).toList ++ rest) = some (.string s, rest) := by
  rw [toList_quoted, cons_append, append_assoc, singleton_append, (run_value_cons ..).1,
    run_bind_of (run_string s (by omega))]
  rfl

/-- Elements in brackets are read back, also if there are none. -/
theorem run_bracketed {α : Type} {sequence : Scanner (List α)} (hclose : close = ']' ∨ close = '\x7d')
    {text : α → String} {xs : List α} (hopens : ∀ x ∈ xs, Opens (text x)) (wrap : List α → Datum)
    (h : xs ≠ [] → sequence.run ((",".intercalate (xs.map text)).toList ++ close :: rest) = some (xs, rest)) : (do
      blanks
      if ← accepts (char close) then return wrap []
      else return wrap (← sequence) : Scanner Datum).run
        ((",".intercalate (xs.map text)).toList ++ close :: rest) = some (wrap xs, rest) := by
  have hother : ∀ c, starts c = true → (c == close) = false := by
    intro c hc
    rw [beq_eq_false_iff_ne]
    rintro rfl
    rcases hclose with rfl | rfl <;> exact absurd hc (by decide)
  cases xs with
  | nil =>
    have hblank : isBlank close = false := by
      rcases hclose with rfl | rfl <;> decide
    rw [map_nil, String.intercalate_nil, show "".toList = [] from rfl, nil_append,
      run_bind_of (run_blanks (Ends.cons hblank)), run_bind_of (run_accepts_char _ _)]
    rfl
  | cons x xs =>
    have hfirst : Opens (",".intercalate ((x :: xs).map text)) :=
      .intercalate (cons_ne_nil _ _) (forall_mem_map.2 hopens)
    rw [run_bind_of (run_blanks (hfirst.ends fun c hc => isBlank_of_starts hc)),
      run_bind_of (run_accepts_none (run_char_none (hfirst.ends hother)))]
    simp only [Bool.false_eq_true, ↓reduceIte]
    rw [run_bind_of (h (cons_ne_nil _ _))]
    rfl

theorem run_value_list {items : List Datum} (hreadable : ∀ d ∈ items, Readable float d)
    (h : ∀ d ∈ items, Reads float d) (hfuel : 2 * (",".intercalate (items.map (write float))).length < fuel) :
    (value (fuel + 1)).run ((write float (.list items)).toList ++ rest) = some (.list items, rest) := by
  have htext : (write float (.list items)).toList ++ rest =
      '[' :: ((",".intercalate (items.map (write float))).toList ++ ']' :: rest) := by
    simp only [write, writeItems_eq, String.toList_append, append_assoc]
    rfl
  have hopens : ∀ d ∈ items, Opens (write float d) := fun d hd => (hreadable d hd).opens
  rw [htext, (run_value_cons ..).2.1]
  exact run_bracketed (.inl rfl) hopens .list fun hne =>
    run_sequence (.inl rfl) (fun _ => by rw [Json.items]) hne hopens h hfuel

theorem run_value_record {entries : List (String × Datum)} (hreadable : ∀ x ∈ entries, Readable float x.2)
    (h : ∀ x ∈ entries, Reads float x.2) (hfuel : 2 * (",".intercalate (entries.map (entryText float))).length < fuel) :
    (value (fuel + 1)).run ((write float (.record entries)).toList ++ rest) = some (.record entries, rest) := by
  have htext : (write float (.record entries)).toList ++ rest =
      '\x7b' :: ((",".intercalate (entries.map (entryText float))).toList ++ '\x7d' :: rest) := by
    simp only [write, writeEntries_eq, String.toList_append, append_assoc]
    rfl
  have hopens : ∀ x ∈ entries, Opens (entryText float x) := fun x _ => opens_entryText x
  rw [htext, (run_value_cons ..).2.2]
  exact run_bracketed (.inr rfl) hopens .record fun hne =>
    run_sequence (.inr rfl) entries_succ hne hopens
      (fun x hx fuel rest hfuel => run_entry (hreadable x hx) (h x hx) hfuel) hfuel

/-- Every value that can be read back is read back from its text. -/
theorem Readable.reads (hd : Readable float d) : Reads float d := by
  induction hd with intro fuel rest hfuel hrest
  | null =>
    obtain ⟨fuel, rfl⟩ := exists_succ .null hfuel
    rw [write, value]
    rfl
  | bool b =>
    obtain ⟨fuel, rfl⟩ := exists_succ (.bool b) hfuel
    cases b <;> rw [write, value] <;> rfl
  | int hn =>
    obtain ⟨fuel, rfl⟩ := exists_succ (.int hn) hfuel
    obtain ⟨c, cs, hcs, hc⟩ := exists_toString_int _
    have hnumber := run_number _ hn hrest
    rw [write, hcs, cons_append] at *
    rw [run_value_number hc, hnumber]
  | float hx =>
    obtain ⟨fuel, rfl⟩ := exists_succ (.float hx) hfuel
    obtain ⟨c, cs, hcs, hc⟩ := hx.starts
    have hnumber := hx.reads rest hrest
    rw [hcs, cons_append] at hnumber
    rw [write, hcs, cons_append, run_value_number hc, hnumber]
  | string s =>
    obtain ⟨fuel, rfl⟩ := exists_succ (.string s) hfuel
    have hlength := length_quoted s
    rw [write] at hfuel ⊢
    exact run_value_string s (by omega)
  | list hitems ih =>
    obtain ⟨fuel, rfl⟩ := exists_succ (.list hitems) hfuel
    refine run_value_list hitems ih ?_
    simp only [write, writeItems_eq, String.length_append, show "[".length = 1 from rfl] at hfuel
    omega
  | record hentries ih =>
    obtain ⟨fuel, rfl⟩ := exists_succ (.record hentries) hfuel
    refine run_value_record hentries ih ?_
    simp only [write, writeEntries_eq, String.length_append, show "\x7b".length = 1 from rfl] at hfuel
    omega

/-- The text of a value that can be read back writes that value. -/
theorem parse?_write (hd : Readable float d) : parse? (write float d) = some d := by
  have hblanks : blanks.run (write float d).toList = some ((), (write float d).toList) := by
    have h : Ends isBlank ((write float d).toList ++ []) := hd.opens.ends fun c hc => isBlank_of_starts hc
    rw [append_nil] at h
    exact run_blanks h
  have hvalue := hd.reads (2 * (write float d).toList.length + 2) [] (by rw [String.length_toList]; omega) .nil
  rw [append_nil] at hvalue
  have hend : blanks.run [] = some ((), []) := rfl
  rw [parse?, Scanner.parse?, run_bind_of hblanks, run_bind_of hvalue, run_bind_of hend]
  rfl

end Json

end QueryLowering
