import RegexDerivatives.Proofs.SingleWord

/-!
# A word read over and over

The star of a word expects the symbols of the word in turn and begins again when the word is
finished.  What a recognizer of it holds is known node by node after any number of symbols:
the rest of the word in front of the star in the middle of a round, and the star alone at the
end of a round.  One more symbol leads from each of these regexes to the next, or to nothing
(`residual_roundResidual`), so that they do not grow however long the input is.
-/

namespace RegexDerivatives

universe u

variable {α : Type u}

namespace Word

/-- The symbol at a place of the endless repetition of a word. -/
def cyclic (w : Word α) (hw : w ≠ []) (n : Nat) : α :=
  w.get ⟨n % w.length, Nat.mod_lt n (List.length_pos_iff.2 hw)⟩

/-- What is left of the current round after `n` symbols of the endless repetition. -/
def roundRest (w : Word α) (n : Nat) : Word α :=
  if n % w.length = 0 then [] else w.drop (n % w.length)

/-- A further symbol is taken from the rest of the round, or from the whole word when a round
has just been finished. -/
theorem drop_mod_length (w : Word α) (hw : w ≠ []) (n : Nat) :
    w.drop (n % w.length) = w.cyclic hw n :: w.roundRest (n + 1) := by
  have hlt : n % w.length < w.length := Nat.mod_lt n (List.length_pos_iff.2 hw)
  have hrest : w.roundRest (n + 1) = w.drop (n % w.length + 1) := by
    unfold roundRest
    rw [← Nat.mod_add_mod n w.length 1]
    rcases Nat.lt_or_ge (n % w.length + 1) w.length with hinside | hend
    · rw [Nat.mod_eq_of_lt hinside, if_neg (Nat.succ_ne_zero _)]
    · -- The word is finished, so the next round has not begun.
      have hlast : n % w.length + 1 = w.length := by omega
      rw [hlast, Nat.mod_self, if_pos rfl, List.drop_length]
  rw [hrest]
  exact List.drop_eq_getElem_cons hlt

theorem drop_mod_length_ne_nil (w : Word α) (hw : w ≠ []) (n : Nat) :
    w.drop (n % w.length) ≠ [] := by
  rw [w.drop_mod_length hw]
  exact List.cons_ne_nil _ _

variable [BEq α]

/-- The symbols are those of the endless repetition of a word behind its first `n` symbols. -/
def Continues (w : Word α) (hw : w ≠ []) (n : Nat) (v : Word α) : Prop :=
  ∀ i (h : i < v.length), (w.cyclic hw (n + i) == v[i]) = true

instance (w : Word α) (hw : w ≠ []) (n : Nat) (v : Word α) : Decidable (w.Continues hw n v) :=
  inferInstanceAs (Decidable (∀ i (h : i < v.length), (w.cyclic hw (n + i) == v[i]) = true))

theorem continues_nil (w : Word α) (hw : w ≠ []) (n : Nat) : w.Continues hw n [] := by
  intro i h
  exact absurd h (Nat.not_lt_zero i)

theorem continues_cons_iff {w : Word α} {hw : w ≠ []} {n : Nat} {s : α} {v : Word α} :
    w.Continues hw n (s :: v) ↔ (w.cyclic hw n == s) = true ∧ w.Continues hw (n + 1) v := by
  constructor
  · intro h
    refine ⟨h 0 (Nat.zero_lt_succ _), fun i hi => ?_⟩
    have hsucc := h (i + 1) (Nat.succ_lt_succ hi)
    rw [Nat.add_right_comm]
    exact hsucc
  · rintro ⟨hs, hv⟩ i hi
    cases i with
    | zero => exact hs
    | succ i =>
        have hrest := hv i (Nat.lt_of_succ_lt_succ hi)
        rw [Nat.add_right_comm] at hrest
        exact hrest

end Word

namespace Regex

/-! ## The regexes of a round -/

/-- What is left of the star of a word after `n` symbols of its endless repetition. -/
def roundResidual (w : Word α) (n : Nat) : Regex α :=
  (concat (ofWord (w.roundRest n)) (star (ofWord w))).normalForm

/-- At the end of a round the star is left alone, and otherwise the rest of the word in front
of it. -/
theorem roundResidual_eq {w : Word α} (hw : w ≠ []) (n : Nat) :
    roundResidual w n =
      if n % w.length = 0 then star (ofWord w).normalForm
      else concat (ofWord (w.drop (n % w.length))).normalForm (star (ofWord w).normalForm) := by
  unfold roundResidual Word.roundRest
  rw [normalForm_concat, normalForm_star]
  split
  · rw [ofWord_nil, normalForm_epsilon, absorbConcat_epsilon_left]
  · exact absorbConcat_eq_concat (normalForm_ofWord_ne_empty _)
      (normalForm_ofWord_ne_epsilon (w.drop_mod_length_ne_nil hw n)) (star_ne_empty _)
      (star_ne_epsilon _)

theorem size_roundResidual_le {w : Word α} (hw : w ≠ []) (n : Nat) :
    (roundResidual w n).size ≤ 4 * w.length - 2 := by
  have hword := size_normalForm_ofWord hw
  have hlt : n % w.length < w.length := Nat.mod_lt n (List.length_pos_iff.2 hw)
  rw [roundResidual_eq hw]
  split
  · rw [size_star]
    omega
  · have hrest := size_normalForm_ofWord (w.drop_mod_length_ne_nil hw n)
    rw [List.length_drop] at hrest
    rw [size_concat, size_star]
    omega

variable [BEq α]

/-- The star of a regex that does not describe the empty word reads its first symbol by that
regex. -/
theorem residual_star_of_not_nullable {x : Regex α} (h : x.nullable = false) (s : α) :
    (star x).residual s = (concat x (star x)).residual s := by
  rw [residual_star, residual_concat, epsilonPart_of_not_nullable h, absorbConcat_empty_left,
    absorbUnion_empty_left, normalForm_star]

/-- The symbol that is expected leads to the next regex of the round, any other to nothing. -/
theorem residual_roundResidual (w : Word α) (hw : w ≠ []) (n : Nat) (s : α) :
    (roundResidual w n).residual s =
      if w.cyclic hw n == s then roundResidual w (n + 1) else empty := by
  have hround : (roundResidual w n).residual s =
      (concat (ofWord (w.drop (n % w.length))) (star (ofWord w))).residual s := by
    have hnullable : (ofWord w).nullable = false := by
      rw [nullable_ofWord]
      exact List.isEmpty_eq_false_iff.2 hw
    unfold roundResidual Word.roundRest
    rw [residual_normalForm]
    split
    · next hzero =>
        -- The star alone reads the symbol as the word in front of it does.
        rw [hzero, List.drop_zero, ← residual_star_of_not_nullable hnullable, ofWord_nil,
          ← residual_absorbConcat, absorbConcat_epsilon_left]
    · rfl
  rw [hround, w.drop_mod_length hw, residual_concat_ofWord]
  rfl

theorem residualBy_roundResidual (w : Word α) (hw : w ≠ []) (n : Nat) (v : Word α) :
    (roundResidual w n).residualBy v =
      if w.Continues hw n v then roundResidual w (n + v.length) else empty := by
  induction v generalizing n with
  | nil => rw [if_pos (w.continues_nil hw n), residualBy_nil, List.length_nil, Nat.add_zero]
  | cons s v ih =>
      rw [residualBy_cons, residual_roundResidual w hw]
      by_cases hs : (w.cyclic hw n == s) = true
      · rw [if_pos hs, ih (n + 1), List.length_cons, Nat.add_right_comm, Nat.add_assoc]
        simp only [Word.continues_cons_iff, hs, true_and]
      · have hnone : ¬w.Continues hw n (s :: v) := fun h => hs (Word.continues_cons_iff.1 h).1
        rw [if_neg hs, if_neg hnone, residualBy_empty]

/-- Behind at least one symbol the star of a word is what it is at that place of a round, as
long as the symbols are those of its repetition, and nothing otherwise. -/
theorem residualBy_star_ofWord {w : Word α} (hw : w ≠ []) {v : Word α} (hv : v ≠ []) :
    (star (ofWord w)).residualBy v =
      if w.Continues hw 0 v then roundResidual w v.length else empty := by
  obtain ⟨s, u, rfl⟩ := List.exists_cons_of_ne_nil hv
  have hstart : roundResidual w 0 = (star (ofWord w)).normalForm := by
    rw [roundResidual_eq hw, Nat.zero_mod, if_pos rfl, normalForm_star]
  rw [← residualBy_normalForm_cons, ← hstart, residualBy_roundResidual w hw, Nat.zero_add]

theorem describes_star_ofWord_iff {w v : Word α} :
    (star (ofWord w)).Describes v ↔
      ∃ copies : List (Word α), v = copies.flatten ∧ ∀ u ∈ copies, w.Matches u := by
  rw [describes_star_iff]
  simp only [describes_ofWord_iff]

end Regex

namespace Recognizer

variable [BEq α]

/-- A recognizer of the star of a word that has read some symbols holds the star alone when it
has finished a round of the word, and otherwise the rest of the round in front of the star,
provided that all symbols match those of the endless repetition of the word; if not, it is
dead.  So its size is bounded by the word alone.  It accepts what consists of words that match
the word. -/
theorem run_star_ofWord {w : Word α} (hw : w ≠ []) :
    (∀ v : Word α, v ≠ [] →
      let current := ((start (.star (.ofWord w))).readAll v).current
      ((∀ i (h : i < v.length), (w.cyclic hw i == v[i]) = true) →
        current =
          if v.length % w.length = 0 then .star (Regex.ofWord w).normalForm
          else .concat (Regex.ofWord (w.drop (v.length % w.length))).normalForm
            (.star (Regex.ofWord w).normalForm)) ∧
      ((¬∀ i (h : i < v.length), (w.cyclic hw i == v[i]) = true) → current = .empty) ∧
      current.size ≤ 4 * w.length - 2) ∧
    ∀ v : Word α, (Regex.star (.ofWord w)).accepts v = true ↔
      ∃ copies : List (Word α), v = copies.flatten ∧ ∀ u ∈ copies, w.Matches u := by
  constructor
  · intro v hv
    have hcontinues : w.Continues hw 0 v ↔
        ∀ i (h : i < v.length), (w.cyclic hw i == v[i]) = true := by
      simp only [Word.Continues, Nat.zero_add]
    intro current
    have hcurrent : current = if w.Continues hw 0 v then Regex.roundResidual w v.length
        else .empty := by
      show ((start (.star (.ofWord w))).readAll v).current = _
      rw [current_readAll_start, Regex.residualBy_star_ofWord hw hv]
    refine ⟨fun hmatch => ?_, fun hmatch => ?_, ?_⟩
    · rw [hcurrent, if_pos (hcontinues.2 hmatch), Regex.roundResidual_eq hw]
    · rw [hcurrent, if_neg fun h => hmatch (hcontinues.1 h)]
    · rw [hcurrent]
      split
      · exact Regex.size_roundResidual_le hw v.length
      · have hlength : 0 < w.length := List.length_pos_iff.2 hw
        rw [Regex.size_empty]
        omega
  · intro v
    rw [Regex.accepts_eq_true_iff, Regex.describes_star_ofWord_iff]

/-- Two rounds and a half, behind which the bound on the size is reached. -/
theorem run_star_ofWord_ab :
    let w : Word Char := ['a', 'b']
    let v : Word Char := ['a', 'b', 'a', 'b', 'a']
    let ab : Regex Char := .concat (.symbol 'a') (.symbol 'b')
    w ≠ [] ∧ v ≠ [] ∧
      ((start (.star (.ofWord w))).readAll v).current = .concat (.symbol 'b') (.star ab) ∧
      ((start (.star (.ofWord w))).readAll v).current.size ≤ 6 ∧
      (Regex.star (.ofWord w)).accepts (v.take 4) = true := by
  intro w v ab
  have hw : w ≠ [] := List.cons_ne_nil _ _
  have hv : v ≠ [] := List.cons_ne_nil _ _
  obtain ⟨hrun, haccepts⟩ := run_star_ofWord hw
  obtain ⟨hmatch, -, hsize⟩ := hrun v hv
  have hcopy : ∀ i (h : i < v.length), (w.cyclic (List.cons_ne_nil _ _) i == v[i]) = true := by
    decide
  refine ⟨hw, hv, ?_, hsize, (haccepts _).2 ⟨[w, w], rfl, ?_⟩⟩
  · have hplace : v.length % w.length = 1 := by decide
    rw [hmatch hcopy, hplace, if_neg Nat.one_ne_zero]
    rfl
  intro u hu
  obtain rfl : u = w := by simpa using hu
  exact .cons rfl (.cons rfl .nil)

end Recognizer
end RegexDerivatives
