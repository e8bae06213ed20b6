import RegexDerivatives.Regex.Text

/-!
# Unique reading of texts

The text of a regex determines the regex, provided that the texts of its symbols can be
told from the punctuation and from each other.  Three of the six forms begin with a
parenthesis and are told apart only behind their first part.  The statement is therefore
proved for texts in front of any characters at which the text of a symbol must end
(`write_inj`): reading a first part leaves the same characters behind it, and those decide
between the forms.
-/

namespace RegexDerivatives

universe u

/-- The characters that a regex is written with, apart from the texts of its symbols. -/
def punctuation : List Char := ['(', ')', ' ', '|', '*', 'ε', '∅']

/-- The texts of the symbols can be told from the punctuation and from each other. -/
structure PlainTexts (α : Type u) [ToString α] : Prop where
  /-- No text is empty. -/
  ne_empty : ∀ a : α, toString a ≠ ""
  /-- Distinct symbols have distinct texts. -/
  inj : ∀ a b : α, toString a = toString b → a = b
  /-- No text contains punctuation. -/
  notMem_punctuation : ∀ a : α, ∀ c ∈ (toString a).toList, c ∉ punctuation

/-- A text of a symbol in front of these characters ends where they begin: there are none
of them, or the first one is punctuation. -/
def Delimits (rest : List Char) : Prop :=
  ∀ c ∈ rest.head?, c ∈ punctuation

theorem delimits_nil : Delimits [] := by
  intro c hc
  cases hc

theorem delimits_cons {c : Char} (h : c ∈ punctuation) (rest : List Char) :
    Delimits (c :: rest) := by
  intro d hd
  cases hd
  exact h

/-- Texts without punctuation end at the first punctuation that follows. -/
theorem append_inj_of_delimits {t t' rest rest' : List Char} (ht : ∀ c ∈ t, c ∉ punctuation)
    (ht' : ∀ c ∈ t', c ∉ punctuation) (hrest : Delimits rest) (hrest' : Delimits rest')
    (h : t ++ rest = t' ++ rest') : t = t' ∧ rest = rest' := by
  induction t generalizing t' with
  | nil =>
      cases t' with
      | nil => exact ⟨rfl, h⟩
      | cons c t' =>
          rw [List.nil_append] at h
          rw [h] at hrest
          exact absurd (hrest c rfl) (ht' c List.mem_cons_self)
  | cons c t ih =>
      cases t' with
      | nil =>
          rw [List.nil_append] at h
          rw [← h] at hrest'
          exact absurd (hrest' c rfl) (ht c List.mem_cons_self)
      | cons c' t' =>
          obtain ⟨rfl, htail⟩ := List.cons.inj h
          obtain ⟨rfl, hrests⟩ := ih (fun d hd => ht d (List.mem_cons_of_mem c hd))
            (fun d hd => ht' d (List.mem_cons_of_mem c hd)) htail
          exact ⟨rfl, hrests⟩

namespace Regex

/-- The punctuation that the text of a regex begins with, if it does not begin with the
text of a symbol. -/
def opening {α : Type u} : Regex α → Option Char
  | empty => some '∅'
  | epsilon => some 'ε'
  | symbol _ => none
  | concat _ _ => some '('
  | union _ _ => some '('
  | star _ => some '('

variable {α : Type u} [ToString α]

theorem filter_head?_write (h : PlainTexts α) (r : Regex α) (rest : List Char) :
    ((r.write rest).head?.filter fun c => c ∈ punctuation) = r.opening := by
  cases r with
  | empty => rfl
  | epsilon => rfl
  | symbol a =>
      have hne : (toString a).toList ≠ [] := by
        intro hnil
        exact h.ne_empty a (String.toList_inj.1 hnil)
      obtain ⟨c, t, htext⟩ := List.exists_cons_of_ne_nil hne
      have hc : c ∉ punctuation := by
        apply h.notMem_punctuation a
        rw [htext]
        exact List.mem_cons_self
      rw [write, htext, List.cons_append, List.head?_cons, Option.filter_some]
      simp [hc, opening]
  | concat x y => rfl
  | union x y => rfl
  | star x => rfl

/-- Regexes whose texts begin in the same way have the same opening. -/
theorem opening_eq_of_write_eq (h : PlainTexts α) {r r' : Regex α} {rest rest' : List Char}
    (heq : r.write rest = r'.write rest') : r.opening = r'.opening := by
  rw [← filter_head?_write h r rest, heq, filter_head?_write h r' rest']

/-- No text begins with the bar of a union. -/
theorem write_ne_bar_cons (h : PlainTexts α) (r : Regex α) (rest rest' : List Char) :
    r.write rest ≠ '|' :: rest' := by
  intro heq
  have hopening : r.opening = some '|' := by
    rw [← filter_head?_write h r rest, heq]
    rfl
  cases r <;> simp [opening] at hopening

/-- A text and what follows it can be read in one way only. -/
theorem write_inj (h : PlainTexts α) {r r' : Regex α} {rest rest' : List Char}
    (hrest : Delimits rest) (hrest' : Delimits rest') (heq : r.write rest = r'.write rest') :
    r = r' ∧ rest = rest' := by
  have hblank : ∀ l, Delimits (' ' :: l) := delimits_cons (by decide)
  have hclose : ∀ l, Delimits (')' :: l) := delimits_cons (by decide)
  -- Induction on one of the two trees.  The opening tells the leaves from each other and
  -- from the forms in parentheses; these are told apart by what follows their first part.
  induction r generalizing r' rest rest' with
  | empty =>
      have hopening := opening_eq_of_write_eq h heq
      cases r' with
      | empty => exact ⟨rfl, List.tail_eq_of_cons_eq heq⟩
      | _ => simp [opening] at hopening
  | epsilon =>
      have hopening := opening_eq_of_write_eq h heq
      cases r' with
      | epsilon => exact ⟨rfl, List.tail_eq_of_cons_eq heq⟩
      | _ => simp [opening] at hopening
  | symbol a =>
      have hopening := opening_eq_of_write_eq h heq
      cases r' with
      | symbol b =>
          obtain ⟨htext, hrests⟩ := append_inj_of_delimits (h.notMem_punctuation a)
            (h.notMem_punctuation b) hrest hrest' heq
          rw [h.inj a b (String.toList_inj.1 htext)]
          exact ⟨rfl, hrests⟩
      | _ => simp [opening] at hopening
  | concat x y ihx ihy =>
      have hopening := opening_eq_of_write_eq h heq
      cases r' with
      | concat x' y' =>
          obtain ⟨rfl, hy⟩ := ihx (hblank _) (hblank _) (List.tail_eq_of_cons_eq heq)
          obtain ⟨rfl, hend⟩ := ihy (hclose _) (hclose _) (List.tail_eq_of_cons_eq hy)
          exact ⟨rfl, List.tail_eq_of_cons_eq hend⟩
      | union x' y' =>
          obtain ⟨-, hy⟩ := ihx (hblank _) (hblank _) (List.tail_eq_of_cons_eq heq)
          exact absurd (List.tail_eq_of_cons_eq hy) (write_ne_bar_cons h y _ _)
      | star x' =>
          obtain ⟨-, hy⟩ := ihx (hblank _) (hclose _) (List.tail_eq_of_cons_eq heq)
          exact absurd (List.head_eq_of_cons_eq hy) (by decide)
      | _ => simp [opening] at hopening
  | union x y ihx ihy =>
      have hopening := opening_eq_of_write_eq h heq
      cases r' with
      | concat x' y' =>
          obtain ⟨-, hy⟩ := ihx (hblank _) (hblank _) (List.tail_eq_of_cons_eq heq)
          exact absurd (List.tail_eq_of_cons_eq hy).symm (write_ne_bar_cons h y' _ _)
      | union x' y' =>
          obtain ⟨rfl, hy⟩ := ihx (hblank _) (hblank _) (List.tail_eq_of_cons_eq heq)
          have hsecond : y.write (')' :: rest) = y'.write (')' :: rest') := by
            simpa using hy
          obtain ⟨rfl, hend⟩ := ihy (hclose _) (hclose _) hsecond
          exact ⟨rfl, List.tail_eq_of_cons_eq hend⟩
      | star x' =>
          obtain ⟨-, hy⟩ := ihx (hblank _) (hclose _) (List.tail_eq_of_cons_eq heq)
          exact absurd (List.head_eq_of_cons_eq hy) (by decide)
      | _ => simp [opening] at hopening
  | star x ih =>
      have hopening := opening_eq_of_write_eq h heq
      cases r' with
      | concat x' y' =>
          obtain ⟨-, hy⟩ := ih (hclose _) (hblank _) (List.tail_eq_of_cons_eq heq)
          exact absurd (List.head_eq_of_cons_eq hy) (by decide)
      | union x' y' =>
          obtain ⟨-, hy⟩ := ih (hclose _) (hblank _) (List.tail_eq_of_cons_eq heq)
          exact absurd (List.head_eq_of_cons_eq hy) (by decide)
      | star x' =>
          obtain ⟨rfl, hend⟩ := ih (hclose _) (hclose _) (List.tail_eq_of_cons_eq heq)
          have hrests : rest = rest' := by
            simpa using hend
          exact ⟨rfl, hrests⟩
      | _ => simp [opening] at hopening

end Regex

/-! ## Decimal texts -/

/-- A digit is not punctuation. -/
theorem notMem_punctuation_of_isDigit {c : Char} (h : c.isDigit = true) : c ∉ punctuation := by
  have hpunctuation : ∀ d ∈ punctuation, d.isDigit = false := by simp [punctuation]
  intro hc
  rw [hpunctuation c hc] at h
  contradiction

theorem isDigit_of_mem_repr {n : Nat} {c : Char} (h : c ∈ n.repr.toList) : c.isDigit = true := by
  rw [Nat.repr, String.toList_ofList] at h
  exact Nat.isDigit_of_mem_toDigits (by decide) (by decide) h

theorem repr_ne_empty (n : Nat) : n.repr ≠ "" := by
  intro h
  have hpos := Nat.length_repr_pos (n := n)
  rw [h] at hpos
  exact absurd hpos (by decide)

/-- The value of the digits tells numbers apart. -/
theorem eq_of_repr_eq {m n : Nat} (h : m.repr = n.repr) : m = n := by
  have hdigits : Nat.toDigits 10 m = Nat.toDigits 10 n := String.ofList_inj.1 h
  calc
    m = Nat.ofDigitChars 10 (Nat.toDigits 10 m) 0 := Nat.ofDigitChars_ten_toDigits.symm
    _ = Nat.ofDigitChars 10 (Nat.toDigits 10 n) 0 := by rw [hdigits]
    _ = n := Nat.ofDigitChars_ten_toDigits

/-- The text of a negative number is a sign and the text of a natural number. -/
theorem toList_toString_negSucc (n : Nat) :
    (toString (Int.negSucc n)).toList = '-' :: (n + 1).repr.toList := by
  have h : toString (Int.negSucc n) = "-" ++ (n + 1).repr := rfl
  rw [h, String.toList_append]
  rfl

theorem toString_ofNat_ne_toString_negSucc (m n : Nat) :
    toString (Int.ofNat m) ≠ toString (Int.negSucc n) := by
  intro h
  have hsign : '-' ∈ m.repr.toList := by
    show '-' ∈ (toString (Int.ofNat m)).toList
    rw [h, toList_toString_negSucc]
    exact List.mem_cons_self
  exact absurd (isDigit_of_mem_repr hsign) (by decide)

/-- Integers in decimal notation have plain texts. -/
theorem plainTexts_int : PlainTexts Int where
  ne_empty a := by
    cases a with
    | ofNat n => exact repr_ne_empty n
    | negSucc n =>
        intro h
        have hlist := toList_toString_negSucc n
        rw [h] at hlist
        exact List.cons_ne_nil _ _ hlist.symm
  inj a b h := by
    cases a with
    | ofNat m =>
        cases b with
        | ofNat n => exact congrArg Int.ofNat (eq_of_repr_eq h)
        | negSucc n => exact absurd h (toString_ofNat_ne_toString_negSucc m n)
    | negSucc m =>
        cases b with
        | ofNat n => exact absurd h.symm (toString_ofNat_ne_toString_negSucc n m)
        | negSucc n =>
            have hlist := congrArg String.toList h
            rw [toList_toString_negSucc, toList_toString_negSucc] at hlist
            have hrepr : (m + 1).repr = (n + 1).repr :=
              String.toList_inj.1 (List.tail_eq_of_cons_eq hlist)
            rw [Nat.succ.inj (eq_of_repr_eq hrepr)]
  notMem_punctuation a := by
    intro c hc
    cases a with
    | ofNat n => exact notMem_punctuation_of_isDigit (isDigit_of_mem_repr hc)
    | negSucc n =>
        rw [toList_toString_negSucc] at hc
        rcases List.mem_cons.1 hc with rfl | hdigits
        · decide
        · exact notMem_punctuation_of_isDigit (isDigit_of_mem_repr hdigits)

/-- Bytes in decimal notation have plain texts. -/
theorem plainTexts_byte : PlainTexts UInt8 where
  ne_empty a := repr_ne_empty a.toNat
  inj a b h := UInt8.toNat_inj.1 (eq_of_repr_eq h)
  notMem_punctuation a := by
    intro c hc
    exact notMem_punctuation_of_isDigit (isDigit_of_mem_repr hc)

/-! ## The text determines the regex -/

/-- Regexes over symbols with plain texts have the same text only if they are the same.
Integers and bytes in decimal notation have plain texts. -/
theorem toString_regex_inj :
    (∀ (α : Type u) [ToString α], PlainTexts α →
        ∀ r r' : Regex α, toString r = toString r' ↔ r = r') ∧
      PlainTexts Int ∧ PlainTexts UInt8 := by
  refine ⟨?_, plainTexts_int, plainTexts_byte⟩
  intro α _ h r r'
  constructor
  · intro heq
    have hchars : r.write [] = r'.write [] := Regex.toString_eq_iff.1 heq
    exact (Regex.write_inj h delimits_nil delimits_nil hchars).1
  · rintro rfl
    rfl

/-- The same digits in the same order, divided at different places, are different
texts. -/
theorem toString_ne_of_digits_divided :
    PlainTexts Int ∧
      toString (Regex.concat (.symbol 12) (.symbol 3) : Regex Int) ≠
        toString (Regex.concat (.symbol 1) (.symbol 23) : Regex Int) := by
  obtain ⟨hinjective, hint, -⟩ := toString_regex_inj
  refine ⟨hint, fun h => ?_⟩
  have heq := (hinjective Int hint _ _).1 h
  simp at heq

example : toString (Regex.symbol "(1 2)") = toString (Regex.concat (.symbol "1") (.symbol "2")) :=
  rfl

end RegexDerivatives
