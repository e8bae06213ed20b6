import RegexDerivatives.Regex.Language
import RegexDerivatives.Regex.NormalForm

/-!
# The languages of derivatives, normal forms and residuals

A derivative describes what may follow its symbol, and absorption changes no
language.  Together they say what the residual of a regex by a word describes:
exactly the words that complete the word already read.  Nothing is assumed about
the comparison of symbols, and no regex is assumed to be in normal form.
-/

namespace RegexDerivatives

universe u

namespace Regex

variable {α : Type u} [BEq α]

/-! ## Derivatives -/

theorem describes_nil_iff {r : Regex α} : r.Describes [] ↔ r.nullable = true := by
  induction r with
  | empty => simp
  | epsilon => simp
  | symbol a => simp [describes_symbol_iff]
  | concat x y ihx ihy =>
      rw [describes_concat_iff, nullable_concat, Bool.and_eq_true, ← ihx, ← ihy]
      constructor
      · rintro ⟨u, v, h, hx, hy⟩
        obtain ⟨rfl, rfl⟩ := List.append_eq_nil_iff.1 h.symm
        exact ⟨hx, hy⟩
      · rintro ⟨hx, hy⟩
        exact ⟨[], [], rfl, hx, hy⟩
  | union x y ihx ihy =>
      rw [describes_union_iff, nullable_union, Bool.or_eq_true, ihx, ihy]
  | star x ih => exact iff_of_true .starNil rfl

theorem describes_symbol_cons_iff {a s : α} {w : Word α} :
    (symbol a).Describes (s :: w) ↔ (a == s) = true ∧ w = [] := by
  rw [describes_symbol_iff]
  constructor
  · rintro ⟨t, h, ht⟩
    obtain ⟨rfl, rfl⟩ := List.cons.inj h
    exact ⟨ht, rfl⟩
  · rintro ⟨h, rfl⟩
    exact ⟨s, rfl, h⟩

theorem describes_epsilon_concat_iff {y : Regex α} {w : Word α} :
    (concat epsilon y).Describes w ↔ y.Describes w := by
  rw [describes_concat_iff]
  constructor
  · rintro ⟨u, v, rfl, hu, hv⟩
    rw [describes_epsilon_iff] at hu
    rwa [hu, List.nil_append]
  · intro h
    exact ⟨[], w, rfl, .epsilon, h⟩

theorem describes_concat_epsilon_iff {x : Regex α} {w : Word α} :
    (concat x epsilon).Describes w ↔ x.Describes w := by
  rw [describes_concat_iff]
  constructor
  · rintro ⟨u, v, rfl, hu, hv⟩
    rw [describes_epsilon_iff] at hv
    rwa [hv, List.append_nil]
  · intro h
    exact ⟨w, [], (List.append_nil w).symm, h, .epsilon⟩

/-- The first symbol of a word of a concatenation belongs to the second part,
after an empty first word, or to the first part. -/
theorem describes_concat_cons_iff {x y : Regex α} {s : α} {w : Word α} :
    (concat x y).Describes (s :: w) ↔
      x.Describes [] ∧ y.Describes (s :: w) ∨
        ∃ u v, w = u ++ v ∧ x.Describes (s :: u) ∧ y.Describes v := by
  rw [describes_concat_iff]
  constructor
  · rintro ⟨u, v, h, hx, hy⟩
    cases u with
    | nil =>
        rw [List.nil_append] at h
        exact .inl ⟨hx, h ▸ hy⟩
    | cons t u =>
        obtain ⟨rfl, rfl⟩ := List.cons.inj h
        exact .inr ⟨u, v, rfl, hx, hy⟩
  · rintro (⟨hx, hy⟩ | ⟨u, v, rfl, hx, hy⟩)
    · exact ⟨[], s :: w, rfl, hx, hy⟩
    · exact ⟨s :: u, v, rfl, hx, hy⟩

/-- The first symbol of a word of a star belongs to a word of the body that is
not empty. -/
theorem describes_star_cons_iff {x : Regex α} {s : α} {w : Word α} :
    (star x).Describes (s :: w) ↔
      ∃ u v, w = u ++ v ∧ x.Describes (s :: u) ∧ (star x).Describes v := by
  constructor
  · intro h
    generalize hr : star x = r at h
    generalize hsw : s :: w = w' at h
    -- Induction on the description; empty words of the body in front of the
    -- first symbol are dropped one by one.
    induction h with
    | @starAppend x' v v' hv h _ ih =>
        cases v with
        | nil => exact ih hr hsw
        | cons t v =>
            obtain ⟨rfl, rfl⟩ := List.cons.inj hsw
            cases hr
            exact ⟨v, v', rfl, hv, h⟩
    | starNil => cases hsw
    | _ => cases hr
  · rintro ⟨u, v, rfl, hx, h⟩
    exact .starAppend hx h

theorem describes_concat_epsilonPart_iff {x y : Regex α} {w : Word α} :
    (concat x.epsilonPart y).Describes w ↔ x.Describes [] ∧ y.Describes w := by
  rw [describes_nil_iff]
  cases h : x.nullable with
  | true =>
      rw [epsilonPart_of_nullable h, describes_epsilon_concat_iff]
      simp
  | false =>
      rw [epsilonPart_of_not_nullable h]
      simp [describes_concat_iff]

/-- A word is in the derivative by a symbol exactly when the symbol followed by
the word is in the regex. -/
theorem describes_derivative_iff {r : Regex α} {s : α} {w : Word α} :
    (r.derivative s).Describes w ↔ r.Describes (s :: w) := by
  induction r generalizing w with
  | empty => simp
  | epsilon => simp
  | symbol a =>
      rw [derivative_symbol, describes_symbol_cons_iff]
      by_cases h : (a == s) = true
      · simp [h]
      · simp [h]
  | concat x y ihx ihy =>
      -- The two alternatives of the derivative are the two cases for the first symbol.
      rw [derivative_concat, describes_union_iff, describes_concat_epsilonPart_iff, ihy,
        describes_concat_iff, describes_concat_cons_iff]
      simp only [ihx]
  | union x y ihx ihy =>
      rw [derivative_union, describes_union_iff, describes_union_iff, ihx, ihy]
  | star x ih =>
      rw [derivative_star, describes_concat_iff, describes_star_cons_iff]
      simp only [ih]

theorem describes_derivativeBy_iff {r : Regex α} {v w : Word α} :
    (r.derivativeBy v).Describes w ↔ r.Describes (v ++ w) := by
  induction v generalizing r with
  | nil => rfl
  | cons s v ih => rw [derivativeBy_cons, ih, describes_derivative_iff, List.cons_append]

theorem nullable_derivativeBy_iff {r : Regex α} {w : Word α} :
    (r.derivativeBy w).nullable = true ↔ r.Describes w := by
  rw [← describes_nil_iff, describes_derivativeBy_iff, List.append_nil]

/-! ## Normal forms -/

theorem describes_absorbConcat_iff {x y : Regex α} {w : Word α} :
    (absorbConcat x y).Describes w ↔ (concat x y).Describes w := by
  fun_cases absorbConcat x y with
  | case1 y => simp [describes_concat_iff]
  | case2 x hx => simp [describes_concat_iff]
  | case3 y hy => rw [describes_epsilon_concat_iff]
  | case4 x hx hx' => rw [describes_concat_epsilon_iff]
  | case5 x y hx hy hx' hy' => rfl

theorem describes_absorbUnion_iff {x y : Regex α} {w : Word α} :
    (absorbUnion x y).Describes w ↔ (union x y).Describes w := by
  fun_cases absorbUnion x y with
  | case1 y => simp [describes_union_iff]
  | case2 x hx => simp [describes_union_iff]
  | case3 x y hx hy => rfl

/-- Absorption keeps the language. -/
theorem describes_normalForm_iff {r : Regex α} {w : Word α} :
    r.normalForm.Describes w ↔ r.Describes w := by
  induction r generalizing w with
  | empty => rfl
  | epsilon => rfl
  | symbol a => rfl
  | concat x y ihx ihy =>
      rw [normalForm_concat, describes_absorbConcat_iff, describes_concat_iff,
        describes_concat_iff]
      simp only [ihx, ihy]
  | union x y ihx ihy =>
      rw [normalForm_union, describes_absorbUnion_iff, describes_union_iff, describes_union_iff,
        ihx, ihy]
  | star x ih =>
      rw [normalForm_star, describes_star_iff, describes_star_iff]
      simp only [ih]

/-! ## Residuals -/

theorem describes_residual_iff {r : Regex α} {s : α} {w : Word α} :
    (r.residual s).Describes w ↔ r.Describes (s :: w) := by
  rw [residual, describes_normalForm_iff, describes_derivative_iff]

/-- The residual by a word describes what completes the word. -/
theorem describes_residualBy_iff {r : Regex α} {v w : Word α} :
    (r.residualBy v).Describes w ↔ r.Describes (v ++ w) := by
  induction v generalizing r with
  | nil => rfl
  | cons s v ih => rw [residualBy_cons, ih, describes_residual_iff, List.cons_append]

/-- The residual by a word describes the empty word exactly when the regex
describes the word. -/
theorem nullable_residualBy_iff {r : Regex α} {w : Word α} :
    (r.residualBy w).nullable = true ↔ r.Describes w := by
  rw [← describes_nil_iff, describes_residualBy_iff, List.append_nil]

end Regex
end RegexDerivatives
