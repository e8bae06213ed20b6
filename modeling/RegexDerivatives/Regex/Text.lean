import RegexDerivatives.Regex.Basic

/-!
# The text of a regex

A regex is written with `ε` for the empty word, `∅` for no word, the symbol's
own text for a symbol, `(x y)` for a concatenation, `(x | y)` for a union and
`(x)*` for a star.  Nothing is escaped.
-/

namespace RegexDerivatives

universe u

namespace Regex

variable {α : Type u} [ToString α]

/-- The text of a regex, written in front of the characters that follow it. -/
def write : Regex α → List Char → List Char
  | empty, rest => '∅' :: rest
  | epsilon, rest => 'ε' :: rest
  | symbol a, rest => (toString a).toList ++ rest
  | concat x y, rest => '(' :: x.write (' ' :: y.write (')' :: rest))
  | union x y, rest => '(' :: x.write (' ' :: '|' :: ' ' :: y.write (')' :: rest))
  | star x, rest => '(' :: x.write (')' :: '*' :: rest)

/-- The characters of the text of a regex. -/
def chars (r : Regex α) : List Char :=
  r.write []

instance : ToString (Regex α) := ⟨fun r => String.ofList r.chars⟩

/-- Writing in front of some characters puts the text before them. -/
theorem write_eq_chars_append (r : Regex α) (rest : List Char) :
    r.write rest = r.chars ++ rest := by
  unfold chars
  induction r generalizing rest with
  | empty => rfl
  | epsilon => rfl
  | symbol a => simp [write]
  | concat x y ihx ihy =>
      simp only [write]
      rw [ihx, ihy, ihx (' ' :: y.write [')']), ihy [')']]
      simp
  | union x y ihx ihy =>
      simp only [write]
      rw [ihx, ihy, ihx (' ' :: '|' :: ' ' :: y.write [')']), ihy [')']]
      simp
  | star x ih =>
      simp only [write]
      rw [ih, ih [')', '*']]
      simp

@[simp] theorem chars_empty : (empty : Regex α).chars = ['∅'] := rfl

@[simp] theorem chars_epsilon : (epsilon : Regex α).chars = ['ε'] := rfl

@[simp] theorem chars_symbol (a : α) : (symbol a).chars = (toString a).toList :=
  List.append_nil _

@[simp] theorem chars_concat (x y : Regex α) :
    (concat x y).chars = '(' :: (x.chars ++ ' ' :: (y.chars ++ [')'])) := by
  rw [← write_eq_chars_append, ← write_eq_chars_append]
  rfl

@[simp] theorem chars_union (x y : Regex α) :
    (union x y).chars = '(' :: (x.chars ++ ' ' :: '|' :: ' ' :: (y.chars ++ [')'])) := by
  rw [← write_eq_chars_append, ← write_eq_chars_append]
  rfl

@[simp] theorem chars_star (x : Regex α) :
    (star x).chars = '(' :: (x.chars ++ [')', '*']) := by
  rw [← write_eq_chars_append]
  rfl

theorem toString_eq (r : Regex α) : toString r = String.ofList r.chars := rfl

/-- Two regexes have the same text exactly when they have the same
characters. -/
theorem toString_eq_iff {r r' : Regex α} : toString r = toString r' ↔ r.chars = r'.chars := by
  rw [toString_eq, toString_eq, String.ofList_inj]

end Regex
end RegexDerivatives
