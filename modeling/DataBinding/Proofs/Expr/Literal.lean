import DataBinding.Expr.Eval
import Mathlib.Algebra.Group.Nat.Defs
import Mathlib.Data.List.DropRight

/-!
# Proofs — Expressions — which texts are literals

A literal of an integer type is a numeral and a run of the letter `l`, and one of a text type is a
text between two quotes.  `Numeral.Signed` and `Literal.Integer` are the grammar of the first with
the number that is denoted, from the values of the places, and `Literal.Quoted` is that of the second.
Reading drops the run, strips each quote on its own, and adds up the digits from the left.

* `Numeral.int64?_eq_some_iff`: the numerals that are read, and as which number.
* `Numeral.signed_toString`: the text of a number is a numeral for it.
* `Literal.eval_literal_exact`: which literals have a value, and which.
-/

namespace DataBinding

/-! ### Numerals -/

namespace Numeral

variable {d k : Nat} {n : Int} {c : Char} {digits text : List Char}

/-- The digits denote the number in base ten: a digit counts by its place, from the last one on. -/
inductive Decimal : List Char → Nat → Prop where
  | last {d : Nat} (h : d < 10) : Decimal [d.digitChar] d
  | more {d k : Nat} {rest : List Char} (h : d < 10) (hrest : Decimal rest k) :
      Decimal (d.digitChar :: rest) (d * 10 ^ rest.length + k)

/-- An integer as a numeral: a sign or none, then digits. -/
inductive Signed : List Char → Int → Prop where
  | bare {digits : List Char} {k : Nat} (h : Decimal digits k) : Signed digits k
  | plus {digits : List Char} {k : Nat} (h : Decimal digits k) : Signed ('+' :: digits) k
  | minus {digits : List Char} {k : Nat} (h : Decimal digits k) : Signed ('-' :: digits) (-k)

theorem digit_digitChar (h : d < 10) : digit d.digitChar = d := Nat.toNat_digitChar_sub_48_of_lt_ten h

theorem digit_lt (h : c.isDigit = true) : digit c < 10 := by
  have hrange := Char.isDigit_iff_toNat.mp h
  have hzero : '0'.toNat = 48 := rfl
  have hnine : '9'.toNat = 57 := rfl
  rw [digit]
  omega

theorem digitChar_digit (h : c.isDigit = true) : (digit c).digitChar = c := by
  have hrange := Char.isDigit_iff_toNat.mp h
  have hzero : '0'.toNat = 48 := rfl
  apply Char.toNat_inj.mp
  rw [Nat.toNat_digitChar_of_lt_ten (digit_lt h), digit]
  omega

theorem value_eq_ofDigitChars (digits : List Char) : value digits = Nat.ofDigitChars 10 digits 0 :=
  Nat.ofDigitChars_eq_foldl.symm

/-- Reading from the left gives each digit the value of its place. -/
theorem value_cons (c : Char) (digits : List Char) :
    value (c :: digits) = digit c * 10 ^ digits.length + value digits := by
  rw [value_eq_ofDigitChars, value_eq_ofDigitChars, Nat.ofDigitChars_cons,
    Nat.ofDigitChars_eq_ofDigitChars_zero, Nat.mul_zero, Nat.zero_add, Nat.mul_comm]
  rfl

namespace Decimal

theorem isDigit (h : Decimal digits k) (hc : c ∈ digits) : c.isDigit = true := by
  induction h with
  | last hd =>
      obtain rfl := List.mem_singleton.mp hc
      rw [Nat.isDigit_digitChar, decide_eq_true hd]
  | more hd _ ih =>
      rcases List.mem_cons.mp hc with rfl | hc
      · rw [Nat.isDigit_digitChar, decide_eq_true hd]
      · exact ih hc

theorem ne_nil (h : Decimal digits k) : digits ≠ [] := by
  cases h <;> exact List.cons_ne_nil _ _

theorem value_eq (h : Decimal digits k) : value digits = k := by
  induction h with
  | last hd =>
      rw [value_cons, digit_digitChar hd]
      simp [value]
  | more hd _ ih => rw [value_cons, digit_digitChar hd, ih]

/-- What starts with a digit has no sign. -/
theorem sign_eq (h : Decimal digits k) : sign digits = (false, digits) := by
  obtain ⟨d, rest, rfl⟩ : ∃ d rest, digits = Nat.digitChar d :: rest := by
    cases h <;> exact ⟨_, _, rfl⟩
  have hplus : d.digitChar ≠ '+' := Nat.digitChar_ne '+' rfl
  have hminus : d.digitChar ≠ '-' := Nat.digitChar_ne '-' rfl
  rw [sign]
  · exact fun rest' h => hplus (List.cons.inj h).1
  · exact fun rest' h => hminus (List.cons.inj h).1

end Decimal

theorem decimal_value (hne : digits ≠ []) (h : ∀ c ∈ digits, c.isDigit = true) :
    Decimal digits (value digits) := by
  induction digits with
  | nil => exact absurd rfl hne
  | cons c digits ih =>
      have hc := h c List.mem_cons_self
      rw [value_cons]
      cases digits with
      | nil =>
          have hlast := Decimal.last (digit_lt hc)
          rw [digitChar_digit hc] at hlast
          simpa [value] using hlast
      | cons c' rest =>
          have hmore := Decimal.more (digit_lt hc)
            (ih (List.cons_ne_nil _ _) fun x hx => h x (List.mem_cons_of_mem _ hx))
          rwa [digitChar_digit hc] at hmore

theorem nat?_eq_some_iff : nat? digits = some k ↔ Decimal digits k := by
  rw [nat?]
  constructor
  · intro h
    split at h
    · rename_i hdigits
      cases h
      exact decimal_value hdigits.1 (List.all_eq_true.mp hdigits.2)
    · cases h
  · intro h
    rw [if_pos ⟨h.ne_nil, List.all_eq_true.mpr fun c hc => h.isDigit hc⟩, h.value_eq]

theorem int?_eq (text : List Char) :
    int? text = (nat? (sign text).2).map fun k : Nat => if (sign text).1 then -(k : Int) else k := by
  rw [int?]
  obtain ⟨negative, rest⟩ := sign text
  dsimp only
  cases nat? rest <;> rfl

theorem int?_eq_some_iff : int? text = some n ↔ Signed text n := by
  rw [int?_eq]
  constructor
  · intro h
    obtain ⟨k, hk, rfl⟩ := Option.map_eq_some_iff.mp h
    have hdigits := nat?_eq_some_iff.mp hk
    revert hdigits
    fun_cases sign text with
    | case1 rest => exact fun hdigits => .plus hdigits
    | case2 rest => exact fun hdigits => .minus hdigits
    | case3 text => exact fun hdigits => .bare hdigits
  · intro h
    cases h with
    | bare h =>
        rw [h.sign_eq, nat?_eq_some_iff.mpr h]
        rfl
    | plus h | minus h =>
        rw [sign, nat?_eq_some_iff.mpr h]
        rfl

/-- **The numerals that are read**: those that denote an integer of 64 bits, and as that integer. -/
theorem int64?_eq_some_iff {n : Int64} : int64? text = some n ↔ Signed text n.toInt := by
  rw [int64?]
  constructor
  · intro h
    obtain ⟨k, hk, h⟩ := Option.bind_eq_some_iff.mp h
    split at h
    · rename_i hrange
      cases h
      have hmax : k < 2 ^ 63 := Int.lt_of_le_of_lt hrange.2 (by decide)
      rw [Int64.toInt_ofInt_of_le hrange.1 hmax]
      exact int?_eq_some_iff.mp hk
    · cases h
  · intro h
    rw [int?_eq_some_iff.mpr h, Option.bind_some,
      if_pos ⟨Int64.minValue_le_toInt n, Int64.toInt_le n⟩, Int64.ofInt_toInt]

theorem decimal_toDigits (k : Nat) : Decimal (Nat.toDigits 10 k) k := by
  have h := decimal_value Nat.toDigits_ne_nil
    (fun c hc => Nat.isDigit_of_mem_toDigits (by decide) (by decide) hc : ∀ c ∈ Nat.toDigits 10 k, _)
  rwa [value_eq_ofDigitChars, Nat.ofDigitChars_ten_toDigits] at h

/-- The text of a number is a numeral for it. -/
theorem signed_toString (n : Int) : Signed (toString n).toList n := by
  rw [Int.toString_eq_repr, Int.repr_eq_if]
  split
  · rename_i hn
    have h := Signed.bare (decimal_toDigits n.toNat)
    rw [Int.toNat_of_nonneg hn] at h
    rwa [Nat.repr_eq_ofList_toDigits, String.toList_ofList]
  · rename_i hn
    have h := Signed.minus (decimal_toDigits (-n).toNat)
    rw [Int.toNat_of_nonneg (by omega), Int.neg_neg] at h
    rw [String.toList_append, Nat.repr_eq_ofList_toDigits, String.toList_ofList, String.toList_ofList]
    exact h

/-- A numeral ends in a digit. -/
theorem Signed.exists_last (h : Signed text n) :
    ∃ front c, text = front ++ [c] ∧ c.isDigit = true := by
  have ends {digits : List Char} {k : Nat} (h : Decimal digits k) :
      ∃ front c, digits = front ++ [c] ∧ c.isDigit = true :=
    ⟨_, _, (List.dropLast_append_getLast h.ne_nil).symm, h.isDigit (List.getLast_mem h.ne_nil)⟩
  cases h with
  | bare h => exact ends h
  | plus h | minus h =>
      obtain ⟨front, c, rfl, hc⟩ := ends h
      exact ⟨_ :: front, c, rfl, hc⟩

end Numeral

/-! ### Literals -/

namespace Literal

variable {suffix front run text s : List Char} {last : Char} {v : Value}

/-- An integer as a literal: a numeral, then a run of the letter `l`, small or capital. -/
def Integer (text : String) (n : Int) : Prop :=
  ∃ numeral run, text.toList = numeral ++ run ∧ Numeral.Signed numeral n ∧
    ∀ c ∈ run, c = 'l' ∨ c = 'L'

/-- A text between two quotes, each of them single or double. -/
def Quoted (text s : String) : Prop :=
  ∃ first last, (first = '"' ∨ first = '\'') ∧ (last = '"' ∨ last = '\'') ∧
    text = String.singleton first ++ s ++ String.singleton last

/-- The run at the end is trimmed and nothing else, where it comes to another character. -/
theorem trimEnd_append (hrun : ∀ c ∈ run, c ∈ suffix) (hlast : last ∉ suffix) :
    trimEnd suffix (front ++ [last] ++ run) = front ++ [last] := by
  have hdrop : ∀ c ∈ run.reverse, suffix.contains c = true := fun c hc =>
    List.contains_iff_mem.mpr (hrun c (List.mem_reverse.mp hc))
  have hstop : ¬ suffix.contains last = true := fun h => hlast (List.contains_iff_mem.mp h)
  rw [trimEnd, List.reverse_append, List.reverse_append, List.dropWhile_append_of_pos hdrop,
    List.reverse_singleton, List.singleton_append, List.dropWhile_cons_of_neg hstop]
  simp

theorem exists_trimmed (suffix text : List Char) :
    ∃ run, text = trimEnd suffix text ++ run ∧ ∀ c ∈ run, c ∈ suffix :=
  ⟨text.rtakeWhile suffix.contains, List.rdropWhile_append_rtakeWhile.symm, fun _ hc =>
    List.contains_iff_mem.mp (List.mem_rtakeWhile_imp hc)⟩

theorem integer_read?_iff {text : String} :
    Form.integer.read? text.toList = some v ↔ ∃ n : Int64, v = .int n ∧ Integer text n.toInt := by
  rw [Form.read?]
  constructor
  · intro h
    obtain ⟨n, hn, rfl⟩ := Option.map_eq_some_iff.mp h
    obtain ⟨run, htext, hrun⟩ := exists_trimmed ['l', 'L'] text.toList
    exact ⟨n, rfl, _, run, htext, Numeral.int64?_eq_some_iff.mp hn, by simpa using hrun⟩
  · rintro ⟨n, rfl, numeral, run, htext, hnumeral, hrun⟩
    obtain ⟨front, last, rfl, hdigit⟩ := hnumeral.exists_last
    have hlast : last ∉ ['l', 'L'] := by
      rintro (_ | ⟨_, _ | ⟨_, h⟩⟩)
      · cases hdigit
      · cases hdigit
      · cases h
    rw [htext, trimEnd_append (by simpa using hrun) hlast, Numeral.int64?_eq_some_iff.mpr hnumeral]
    rfl

theorem isQuote_iff {c : Char} : isQuote c = true ↔ c = '"' ∨ c = '\'' := by
  simp [isQuote]

/-- Each end is stripped on its own, so a single quote is no text. -/
theorem unquote?_eq_some_iff : unquote? text = some s ↔
    ∃ first last, isQuote first = true ∧ isQuote last = true ∧ text = first :: (s ++ [last]) := by
  constructor
  · intro h
    cases text with
    | nil => cases h
    | cons first rest =>
        rw [unquote?] at h
        cases hlast : rest.getLast? with
        | none =>
            rw [hlast] at h
            cases h
        | some last =>
            rw [hlast] at h
            obtain ⟨middle, rfl⟩ := List.getLast?_eq_some_iff.mp hlast
            dsimp only at h
            split at h
            · rename_i hquotes
              cases h
              rw [Bool.and_eq_true] at hquotes
              exact ⟨first, last, hquotes.1, hquotes.2, by rw [List.dropLast_concat]⟩
            · cases h
  · rintro ⟨first, last, hfirst, hlast, rfl⟩
    simp [unquote?, hfirst, hlast]

theorem quoted_read?_iff {text : String} :
    Form.quoted.read? text.toList = some v ↔ ∃ s, v = .str s ∧ Quoted text s := by
  rw [Form.read?, Option.map_eq_some_iff]
  simp only [unquote?_eq_some_iff, isQuote_iff]
  constructor
  · rintro ⟨s, ⟨first, last, hfirst, hlast, htext⟩, rfl⟩
    refine ⟨_, rfl, first, last, hfirst, hlast, String.toList_inj.mp ?_⟩
    simp [htext]
  · rintro ⟨s, rfl, first, last, hfirst, hlast, rfl⟩
    exact ⟨s.toList, ⟨first, last, hfirst, hlast, by simp⟩, by rw [String.ofList_toList]⟩

theorem eval_eq_ok_iff {text ty : String} : eval text ty = .ok v ↔ read? text ty = some v := by
  rw [eval]
  cases read? text ty <;> simp

theorem eval_eq_badLiteral_iff {text ty : String} :
    eval text ty = .error (.badLiteral text ty) ↔ read? text ty = none := by
  rw [eval]
  cases read? text ty <;> simp

/-- A literal has the value that its grammar gives, and is bad where that gives none. -/
theorem eval_of_grammar {α : Type} {form : Form} {ty : String} (hty : Form.ofType? ty = some form)
    {text : String} {value : α → Value} {Grammar : α → Prop}
    (h : ∀ {v}, form.read? text.toList = some v ↔ ∃ a, v = value a ∧ Grammar a) :
    (∀ v, eval text ty = .ok v ↔ ∃ a, v = value a ∧ Grammar a) ∧
      (eval text ty = .error (.badLiteral text ty) ↔ ¬ ∃ a, Grammar a) := by
  have hread (v : Value) : read? text ty = some v ↔ ∃ a, v = value a ∧ Grammar a := by
    rw [read?, hty, Option.bind_some, h]
  refine ⟨fun v => eval_eq_ok_iff.trans (hread v), eval_eq_badLiteral_iff.trans ?_⟩
  rw [Option.eq_none_iff_forall_ne_some]
  constructor
  · rintro hnone ⟨a, ha⟩
    exact hnone _ ((hread _).mpr ⟨a, rfl, ha⟩)
  · intro hnone v hv
    obtain ⟨a, -, ha⟩ := (hread v).mp hv
    exact hnone ⟨a, ha⟩

theorem ofType?_integer {ty : String} (h : ty ∈ ["byte", "short", "int", "long"]) :
    Form.ofType? ty = some .integer := by
  simp only [List.mem_cons, List.not_mem_nil, or_false] at h
  rcases h with rfl | rfl | rfl | rfl <;> rfl

theorem ofType?_quoted {ty : String} (h : ty ∈ ["String", "char"]) :
    Form.ofType? ty = some .quoted := by
  simp only [List.mem_cons, List.not_mem_nil, or_false] at h
  rcases h with rfl | rfl <;> rfl

/-- **Which texts are literals.**  A literal of an integer type has a value exactly if its text is a
sign or none, one or more digits that denote an integer of 64 bits, and a run of the letter `l`; the
value is that integer, and any other text is a bad literal.  The text of an integer, with any such run
behind it, is read as that integer.  A literal of a text type has a value exactly if its text is a text
between two quotes, each single or double, which is the value, and any other is a bad literal. -/
theorem eval_literal_exact {ι : Type} (env : Env) (l : ι) :
    (∀ ty ∈ ["byte", "short", "int", "long"], ∀ text,
      (∀ v, (Expr.literal l text ty).eval env = .ok v ↔
        ∃ n : Int64, v = .int n ∧ Integer text n.toInt) ∧
      ((Expr.literal l text ty).eval env = .error (.badLiteral text ty) ↔
        ¬ ∃ n : Int64, Integer text n.toInt)) ∧
    (∀ ty ∈ ["byte", "short", "int", "long"], ∀ (n : Int64) (run : String),
      (∀ c ∈ run.toList, c = 'l' ∨ c = 'L') →
        (Expr.literal l ((Value.int n).text ++ run) ty).eval env = .ok (.int n)) ∧
    ∀ ty ∈ ["String", "char"], ∀ text,
      (∀ v, (Expr.literal l text ty).eval env = .ok v ↔ ∃ s, v = .str s ∧ Quoted text s) ∧
      ((Expr.literal l text ty).eval env = .error (.badLiteral text ty) ↔ ¬ ∃ s, Quoted text s) := by
  refine ⟨fun ty hty text => eval_of_grammar (ofType?_integer hty) integer_read?_iff,
    fun ty hty n run hrun => ?_,
    fun ty hty text => eval_of_grammar (ofType?_quoted hty) quoted_read?_iff⟩
  change eval ((Value.int n).text ++ run) ty = _
  refine ((eval_of_grammar (ofType?_integer hty) integer_read?_iff).1 _).mpr ⟨n, rfl, ?_⟩
  exact ⟨_, run.toList, String.toList_append, Numeral.signed_toString n.toInt, hrun⟩

/-- The least integer with a run behind it, the text of the greatest with one more, a text made of two
different quotes, and a single quote. -/
theorem eval_literal_exact_ends :
    (Expr.literal () "-9223372036854775808lL" "long").eval Env.empty = .ok (.int Int64.minValue) ∧
    (¬ ∃ n : Int64, Integer "9223372036854775808" n.toInt) ∧
    (Expr.literal () "\"'" "String").eval Env.empty = .ok (.str "") ∧
    ¬ ∃ s, Quoted "\"" s := by
  obtain ⟨hinteger, hshown, hquoted⟩ := eval_literal_exact Env.empty ()
  refine ⟨hshown "long" (by decide) Int64.minValue "lL" (by simp), ?_, ?_, ?_⟩
  · exact (hinteger "int" (by decide) _).2.mp rfl
  · exact ((hquoted "String" (by decide) _).1 _).mpr ⟨"", rfl, '"', '\'', .inl rfl, .inr rfl, rfl⟩
  · exact (hquoted "char" (by decide) _).2.mp rfl

end Literal

end DataBinding
