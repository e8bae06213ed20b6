import Mathlib.Data.List.Forall2
import RegexDerivatives.Proofs.EarlyStop
import RegexDerivatives.Proofs.LateAbsorption

/-!
# The regex of a single word

The regex of a word describes what compares equal to the word place by place.  While a
recognizer of it is fed with symbols that match, it holds the normal form of the regex of
what is left of the word; the first symbol that does not match, or that comes behind the end
of the word, leaves nothing.

* `residual_concat_ofWord` — one symbol, also in front of any other regex;
* `residualBy_normalForm_ofWord_take` — the beginnings of an input;
* `le_agreement_iff` — how far a word and an input agree.
-/

namespace RegexDerivatives

universe u

variable {α : Type u}

namespace Word

variable [BEq α]

/-- The words have equal lengths, and each symbol of the first compares equal to the symbol
of the second at its place. -/
def Matches (w v : Word α) : Prop :=
  List.Forall₂ (fun a s => (a == s) = true) w v

/-- The number of places, counted from the beginning, at which the symbols of the first word
compare equal to those of the second. -/
def agreement : Word α → Word α → Nat
  | a :: w, s :: v => if a == s then agreement w v + 1 else 0
  | _, _ => 0

@[simp] theorem agreement_nil (v : Word α) : agreement [] v = 0 := rfl

theorem agreement_cons_of_beq {a s : α} (h : (a == s) = true) (w v : Word α) :
    agreement (a :: w) (s :: v) = agreement w v + 1 :=
  if_pos h

theorem agreement_cons_of_not_beq {a s : α} (h : ¬(a == s) = true) (w v : Word α) :
    agreement (a :: w) (s :: v) = 0 :=
  if_neg h

/-- The words agree in their first `k` places exactly when their beginnings match. -/
theorem le_agreement_iff {w v : Word α} {k : Nat} :
    k ≤ w.agreement v ↔
      k ≤ w.length ∧ k ≤ v.length ∧ Matches (w.take k) (v.take k) := by
  induction k generalizing w v with
  | zero => exact iff_of_true (Nat.zero_le _) ⟨Nat.zero_le _, Nat.zero_le _, .nil⟩
  | succ k ih =>
      cases w with
      | nil => simp
      | cons a w =>
          cases v with
          | nil => simp [agreement]
          | cons s v =>
              rw [List.take_succ_cons, List.take_succ_cons, Matches, List.forall₂_cons,
                List.length_cons, List.length_cons]
              by_cases h : (a == s) = true
              · rw [agreement_cons_of_beq h, Nat.succ_le_succ_iff, Nat.succ_le_succ_iff,
                  Nat.succ_le_succ_iff, ih]
                simp [h, Matches]
              · rw [agreement_cons_of_not_beq h]
                simp [h]

/-- How far the words agree is the greatest number of places at which they do. -/
theorem isGreatest_agreement (w v : Word α) :
    IsGreatest {k | k ≤ w.length ∧ k ≤ v.length ∧ Matches (w.take k) (v.take k)}
      (w.agreement v) :=
  ⟨le_agreement_iff.1 le_rfl, fun _ hk => le_agreement_iff.2 hk⟩

theorem matches_iff_agreement_eq {w v : Word α} :
    w.Matches v ↔ w.agreement v = w.length ∧ w.length = v.length := by
  constructor
  · intro h
    have hlength : w.length = v.length := h.length_eq
    have hle : w.length ≤ w.agreement v := by
      apply le_agreement_iff.2
      refine ⟨le_rfl, hlength.le, ?_⟩
      rw [List.take_length, hlength, List.take_length]
      exact h
    exact ⟨le_antisymm (le_agreement_iff.1 le_rfl).1 hle, hlength⟩
  · rintro ⟨hagree, hlength⟩
    have htake := (le_agreement_iff.1 hagree.ge).2.2
    rw [List.take_length, hlength, List.take_length] at htake
    exact htake

end Word

namespace Regex

/-! ## The tree of a word -/

theorem nullable_ofWord (w : Word α) : (ofWord w).nullable = w.isEmpty := by
  cases w with
  | nil => rfl
  | cons a w => rfl

theorem normalForm_ofWord_ne_empty (w : Word α) : (ofWord w).normalForm ≠ empty := by
  rw [← isEmpty_eq_false_iff, isEmpty_normalForm]
  induction w with
  | nil => rfl
  | cons a w ih => exact ih

theorem normalForm_ofWord_ne_epsilon {w : Word α} (hw : w ≠ []) :
    (ofWord w).normalForm ≠ epsilon := by
  intro h
  have hnullable : (ofWord w).nullable = true := by
    rw [← nullable_normalForm, h, nullable_epsilon]
  rw [nullable_ofWord] at hnullable
  exact hw (List.isEmpty_iff.1 hnullable)

/-- Absorption takes away the end of the tree of a word and the node above it. -/
theorem size_normalForm_ofWord {w : Word α} (hw : w ≠ []) :
    (ofWord w).normalForm.size + 1 = 2 * w.length := by
  induction w with
  | nil => contradiction
  | cons a w ih =>
      rw [ofWord_cons, normalForm_concat, normalForm_symbol, List.length_cons]
      rcases eq_or_ne w [] with rfl | hne
      · rfl
      · have hrest := ih hne
        rw [absorbConcat_eq_concat (symbol_ne_empty a) (symbol_ne_epsilon a)
          (normalForm_ofWord_ne_empty w) (normalForm_ofWord_ne_epsilon hne), size_concat,
          size_symbol]
        omega

variable [BEq α]

/-- The regex of a word describes what matches the word. -/
theorem describes_ofWord_iff {w v : Word α} : (ofWord w).Describes v ↔ w.Matches v := by
  induction w generalizing v with
  | nil => rw [ofWord_nil, describes_epsilon_iff, Word.Matches, List.forall₂_nil_left_iff]
  | cons a w ih =>
      rw [ofWord_cons, Word.Matches, describes_concat_iff, List.forall₂_cons_left_iff]
      constructor
      · rintro ⟨p, u, rfl, hp, hu⟩
        obtain ⟨s, rfl, hs⟩ := describes_symbol_iff.1 hp
        exact ⟨s, u, hs, ih.1 hu, rfl⟩
      · rintro ⟨s, u, hs, hu, rfl⟩
        exact ⟨[s], u, rfl, .symbol hs, ih.2 hu⟩

/-! ## Residuals -/

theorem residual_ofWord_cons (a : α) (w : Word α) (s : α) :
    (ofWord (a :: w)).residual s = if a == s then (ofWord w).normalForm else empty := by
  have hpart : (symbol a).epsilonPart = empty := epsilonPart_of_not_nullable rfl
  rw [ofWord_cons, residual_concat, hpart, absorbConcat_empty_left, absorbUnion_empty_left,
    residual_symbol]
  split
  · rw [absorbConcat_epsilon_left]
  · rw [absorbConcat_empty_left]

/-- A word in front of any regex loses the symbol that is read. -/
theorem residual_concat_ofWord (a : α) (w : Word α) (z : Regex α) (s : α) :
    (concat (ofWord (a :: w)) z).residual s =
      if a == s then (concat (ofWord w) z).normalForm else empty := by
  have hpart : (ofWord (a :: w)).epsilonPart = empty :=
    epsilonPart_of_not_nullable (nullable_ofWord (a :: w))
  rw [residual_concat, hpart, absorbConcat_empty_left, absorbUnion_empty_left,
    residual_ofWord_cons]
  split
  · rw [normalForm_concat]
  · rw [absorbConcat_empty_left]

/-- What is left of a word behind a beginning of the input is what is left of the word, as
long as they agree, and nothing afterwards. -/
theorem residualBy_normalForm_ofWord_take (w : Word α) {v : Word α} {j : Nat}
    (hj : j ≤ v.length) :
    (ofWord w).normalForm.residualBy (v.take j) =
      if j ≤ w.agreement v then (ofWord (w.drop j)).normalForm else empty := by
  induction v generalizing w j with
  | nil =>
      obtain rfl := Nat.le_zero.1 hj
      rfl
  | cons s v ih =>
      cases j with
      | zero => rfl
      | succ j =>
          rw [List.take_succ_cons, residualBy_normalForm_cons, residualBy_cons]
          cases w with
          | nil => exact residualBy_empty _
          | cons a w =>
              rw [residual_ofWord_cons]
              by_cases h : (a == s) = true
              · rw [if_pos h, ih w (Nat.le_of_succ_le_succ hj), Word.agreement_cons_of_beq h,
                  List.drop_succ_cons]
                simp only [Nat.succ_le_succ_iff]
              · rw [if_neg h, residualBy_empty, Word.agreement_cons_of_not_beq h,
                  if_neg (Nat.not_succ_le_zero j)]

theorem residualBy_ofWord_take (w : Word α) {v : Word α} {j : Nat} (hpos : 1 ≤ j)
    (hj : j ≤ v.length) :
    (ofWord w).residualBy (v.take j) =
      if j ≤ w.agreement v then (ofWord (w.drop j)).normalForm else empty := by
  rw [← residualBy_normalForm_ofWord_take w hj]
  cases v with
  | nil => exact absurd (hpos.trans hj) (Nat.not_succ_le_zero 0)
  | cons s v =>
      obtain ⟨j, rfl⟩ := Nat.exists_eq_add_of_le' hpos
      rw [List.take_succ_cons, residualBy_normalForm_cons]

/-- Nothing is left exactly behind the places where the word and the input agree. -/
theorem residualBy_ofWord_take_eq_empty_iff {w v : Word α} {j : Nat} (hj : j ≤ v.length) :
    (ofWord w).residualBy (v.take j) = empty ↔ w.agreement v < j := by
  rcases Nat.eq_zero_or_pos j with rfl | hpos
  · -- Before the first symbol the whole regex is left, as it was built.
    have hne : ofWord w ≠ empty := by
      intro h
      apply normalForm_ofWord_ne_empty w
      rw [h, normalForm_empty]
    rw [List.take_zero, residualBy_nil]
    exact iff_of_false hne (Nat.not_lt_zero _)
  · rw [residualBy_ofWord_take w hpos hj]
    split
    · next hle => exact iff_of_false (normalForm_ofWord_ne_empty _) (Nat.not_lt_of_le hle)
    · next hlt => exact iff_of_true rfl (Nat.lt_of_not_le hlt)

end Regex

namespace Recognizer

variable [BEq α]

/-- A scan against a single word reads one symbol more than agree, if there is one. -/
theorem consumed_scan_ofWord {m : Recognizer α} {w : Word α} (hm : m.pattern = .ofWord w)
    (b : Verbosity) (v : Word α) :
    (m.scan b v).recognizer.consumed = min v.length (w.agreement v + 1) := by
  rw [consumed_scan, hm]
  apply ((Regex.ofWord w).isLeast_length_readPart v).unique
  constructor
  · rcases Nat.lt_or_ge (w.agreement v) v.length with hlt | hge
    · right
      rw [Nat.min_eq_right hlt]
      exact ⟨hlt, (Regex.residualBy_ofWord_take_eq_empty_iff hlt).2 (Nat.lt_succ_self _)⟩
    · left
      exact Nat.min_eq_left (Nat.le_succ_of_le hge)
  · rintro j (rfl | ⟨hj, hempty⟩)
    · exact Nat.min_le_left _ _
    · exact (Nat.min_le_right _ _).trans
        ((Regex.residualBy_ofWord_take_eq_empty_iff hj).1 hempty)

/-- A word and an input agree in the greatest number of places at which their beginnings
match.  The regex of the word accepts the input when they agree in all places of both; a scan
reads one symbol more than agree, if there is one; symbols that agree leave the normal form
of the regex of the rest of the word, and more symbols leave nothing. -/
theorem run_ofWord (w v : Word α) :
    IsGreatest {k | k ≤ w.length ∧ k ≤ v.length ∧ Word.Matches (w.take k) (v.take k)}
        (w.agreement v) ∧
      ((Regex.ofWord w).accepts v = true ↔ w.agreement v = w.length ∧ w.length = v.length) ∧
      (∀ (b : Verbosity) (m : Recognizer α), m.pattern = .ofWord w →
        (m.scan b v).recognizer.consumed = min v.length (w.agreement v + 1)) ∧
      ∀ j, 1 ≤ j → j ≤ v.length →
        ((start (.ofWord w)).readAll (v.take j)).current =
          if j ≤ w.agreement v then (Regex.ofWord (w.drop j)).normalForm else .empty := by
  refine ⟨w.isGreatest_agreement v, ?_, fun b m hm => ?_, fun j hpos hj => ?_⟩
  · rw [Regex.accepts_eq_true_iff, Regex.describes_ofWord_iff, Word.matches_iff_agreement_eq]
  · exact consumed_scan_ofWord hm b v
  · rw [current_readAll_start]
    exact Regex.residualBy_ofWord_take w hpos hj

/-- An input that agrees in two places, so that a scan reads three of its symbols. -/
theorem run_ofWord_abx :
    let w : Word Char := ['a', 'b', 'c']
    let v : Word Char := ['a', 'b', 'x', 'b', 'c']
    w.agreement v = 2 ∧ (Regex.ofWord w).accepts v = false ∧
      ((start (.ofWord w)).scan .silent v).recognizer.consumed = 3 ∧
      ((start (.ofWord w)).readAll (v.take 2)).current = .symbol 'c' ∧
      ((start (.ofWord w)).readAll (v.take 3)).current = .empty := by
  intro w v
  have hagree : w.agreement v = 2 := by decide
  obtain ⟨-, haccepts, hscan, hsteps⟩ := run_ofWord w v
  refine ⟨hagree, ?_, hscan .silent _ rfl, hsteps 2 (by decide) (by decide),
    hsteps 3 (by decide) (by decide)⟩
  rw [← Bool.not_eq_true, haccepts, hagree]
  decide

end Recognizer
end RegexDerivatives
