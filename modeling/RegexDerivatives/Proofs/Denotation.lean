import Mathlib.Computability.Language
import RegexDerivatives.Proofs.ResidualLanguage

/-!
# Languages as sets of words

The language of a regex, put together from the languages of its parts by the operations on
formal languages: the sum for a union, the product for a concatenation, the star.  It is the
set of the words that the regex describes.  In these terms a derivative is what is left of the
language behind a symbol, and absorption changes a tree but not its language.
-/

namespace RegexDerivatives

universe u

namespace Regex

open scoped Computability

variable {α : Type u} [BEq α]

/-- The set of the words of a regex. -/
def language : Regex α → Language α
  | empty => 0
  | epsilon => 1
  | symbol a => {w | ∃ s, w = [s] ∧ (a == s) = true}
  | concat x y => x.language * y.language
  | union x y => x.language + y.language
  | star x => x.language∗

theorem mem_language_iff {r : Regex α} {w : Word α} : w ∈ r.language ↔ r.Describes w := by
  induction r generalizing w with
  | empty => simp [language]
  | epsilon => simp [language]
  | symbol a =>
      rw [describes_symbol_iff]
      rfl
  | concat x y ihx ihy =>
      rw [describes_concat_iff, language, Language.mem_mul]
      constructor
      · rintro ⟨u, hu, v, hv, rfl⟩
        exact ⟨u, v, rfl, ihx.1 hu, ihy.1 hv⟩
      · rintro ⟨u, v, rfl, hu, hv⟩
        exact ⟨u, ihx.2 hu, v, ihy.2 hv, rfl⟩
  | union x y ihx ihy => rw [describes_union_iff, language, Language.mem_add, ihx, ihy]
  | star x ih =>
      rw [describes_star_iff, language, Language.mem_kstar]
      simp only [ih]

theorem nil_mem_language_iff {r : Regex α} : [] ∈ r.language ↔ r.nullable = true := by
  rw [mem_language_iff, describes_nil_iff]

theorem language_eq_iff {r r' : Regex α} : r.language = r'.language ↔ r.SameLanguage r' := by
  constructor
  · intro h w
    rw [← mem_language_iff, h, mem_language_iff]
  · intro h
    ext w
    rw [mem_language_iff, mem_language_iff]
    exact h w

/-- A word is in the language of the derivative by a symbol exactly when the symbol followed
by the word is in the language of the regex; for the empty word this can be read off the
derivative. -/
theorem language_derivative (r : Regex α) (s : α) :
    (∀ w : Word α, w ∈ (r.derivative s).language ↔ s :: w ∈ r.language) ∧
      ((r.derivative s).nullable = true ↔ [s] ∈ r.language) := by
  have hquotient : ∀ w : Word α, w ∈ (r.derivative s).language ↔ s :: w ∈ r.language := by
    intro w
    rw [mem_language_iff, mem_language_iff, describes_derivative_iff]
  refine ⟨hquotient, ?_⟩
  rw [← nil_mem_language_iff]
  exact hquotient []

/-- The normal form of a regex has the language of the regex; in particular it describes the
empty word when the regex does. -/
theorem language_normalForm (r : Regex α) :
    r.normalForm.language = r.language ∧
      r.normalForm.nullable = r.nullable ∧ r.normalForm.epsilonPart = r.epsilonPart := by
  have hsame : r.normalForm.SameLanguage r := fun w => describes_normalForm_iff
  exact ⟨language_eq_iff.2 hsame, nullable_normalForm r, epsilonPart_normalForm r⟩

end Regex
end RegexDerivatives
