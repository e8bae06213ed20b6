import RegexDerivatives.Regex.Basic

/-!
# The language of a regex

Which words a regex describes, said without derivatives: as the least relation
closed under one rule for each way of building a word.  A symbol of the regex
stands for every symbol of the input that it compares equal to, with the symbol
of the regex on the left of the comparison.

The main statements read each rule backwards; for a star, a word is described
exactly when it is cut into finitely many words of the body.
-/

namespace RegexDerivatives

universe u

namespace Regex

variable {α : Type u} [BEq α]

/-- The regex describes the word. -/
inductive Describes : Regex α → Word α → Prop where
  | epsilon : Describes epsilon []
  | symbol {a s : α} (h : (a == s) = true) : Describes (symbol a) [s]
  | concat {x y : Regex α} {v w : Word α} (hx : Describes x v) (hy : Describes y w) :
      Describes (concat x y) (v ++ w)
  | unionLeft {x y : Regex α} {w : Word α} (h : Describes x w) : Describes (union x y) w
  | unionRight {x y : Regex α} {w : Word α} (h : Describes y w) : Describes (union x y) w
  | starNil {x : Regex α} : Describes (star x) []
  | starAppend {x : Regex α} {v w : Word α} (hx : Describes x v) (h : Describes (star x) w) :
      Describes (star x) (v ++ w)

/-- The words described by one regex are the words described by the other. -/
def SameLanguage (r r' : Regex α) : Prop :=
  ∀ w : Word α, r.Describes w ↔ r'.Describes w

@[simp] theorem not_describes_empty (w : Word α) : ¬ (empty : Regex α).Describes w := by
  intro h
  cases h

@[simp] theorem describes_epsilon_iff {w : Word α} :
    (epsilon : Regex α).Describes w ↔ w = [] := by
  constructor
  · intro h
    cases h
    rfl
  · rintro rfl
    exact .epsilon

theorem describes_symbol_iff {a : α} {w : Word α} :
    (symbol a).Describes w ↔ ∃ s, w = [s] ∧ (a == s) = true := by
  constructor
  · intro h
    cases h with
    | symbol h => exact ⟨_, rfl, h⟩
  · rintro ⟨s, rfl, h⟩
    exact .symbol h

theorem describes_concat_iff {x y : Regex α} {w : Word α} :
    (concat x y).Describes w ↔ ∃ u v, w = u ++ v ∧ x.Describes u ∧ y.Describes v := by
  constructor
  · intro h
    cases h with
    | concat hx hy => exact ⟨_, _, rfl, hx, hy⟩
  · rintro ⟨u, v, rfl, hx, hy⟩
    exact .concat hx hy

theorem describes_union_iff {x y : Regex α} {w : Word α} :
    (union x y).Describes w ↔ x.Describes w ∨ y.Describes w := by
  constructor
  · intro h
    cases h with
    | unionLeft h => exact .inl h
    | unionRight h => exact .inr h
  · rintro (h | h)
    · exact .unionLeft h
    · exact .unionRight h

/-- A word of the body is a word of the star. -/
theorem Describes.star {x : Regex α} {w : Word α} (h : x.Describes w) :
    x.star.Describes w := by
  have hw := Describes.starAppend h .starNil
  rwa [List.append_nil] at hw

/-- A star describes the concatenations of finitely many words of its body. -/
theorem describes_star_iff {x : Regex α} {w : Word α} :
    (star x).Describes w ↔
      ∃ words : List (Word α), w = words.flatten ∧ ∀ v ∈ words, x.Describes v := by
  constructor
  · intro h
    generalize hr : Regex.star x = r at h
    induction h with
    | starNil => exact ⟨[], rfl, by simp⟩
    | starAppend hv _ _ ih =>
        obtain ⟨words, rfl, hwords⟩ := ih hr
        cases hr
        exact ⟨_ :: words, rfl, by simpa using ⟨hv, hwords⟩⟩
    | _ => cases hr
  · rintro ⟨words, rfl, hwords⟩
    induction words with
    | nil => exact .starNil
    | cons v words ih =>
        rw [List.forall_mem_cons] at hwords
        exact .starAppend hwords.1 (ih hwords.2)

end Regex
end RegexDerivatives
