import Mathlib.Algebra.BigOperators.Intervals
import Mathlib.Tactic.Linarith
import Mathlib.Tactic.Ring
import RegexDerivatives.Proofs.LateAbsorption

/-!
# The growth of residuals

Equal parts of a union are not merged, so a residual keeps one alternative for each
way in which the regex can have read the word.  This file counts those ways without
derivatives, by cutting the word into words of the parts that are finished, and shows
that the count and the size of the residual bound each other:

* a residual has at least as many nodes as the word has readings, up to one;
* it has at most `r.size ^ 2 + 1` nodes for each reading, up to one.

So the sizes of all residuals of a regex are bounded exactly when its readings are.
The star of a star is a regex for which they are not: its residual consists of two
equal parts after every further symbol.
-/

namespace RegexDerivatives

universe u

namespace Regex

variable {α : Type u}

/-! ## Weights -/

/-- The weight of a regex: one more than its size, and zero for `empty`.  Unlike
the size, it is additive for unions with absorption. -/
def weight (r : Regex α) : Nat :=
  if r.isEmpty then 0 else r.size + 1

@[simp] theorem weight_empty : (empty : Regex α).weight = 0 := rfl

theorem weight_of_ne_empty {r : Regex α} (h : r ≠ empty) : r.weight = r.size + 1 := by
  rw [weight, isEmpty_eq_false_iff.2 h]
  rfl

theorem weight_le_size_succ (r : Regex α) : r.weight ≤ r.size + 1 := by
  unfold weight
  split
  · exact Nat.zero_le _
  · exact Nat.le_refl _

theorem size_le_weight_succ (r : Regex α) : r.size ≤ r.weight + 1 := by
  by_cases h : r = empty
  · rw [h]
    exact Nat.le_refl 1
  · rw [weight_of_ne_empty h]
    omega

theorem weight_absorbUnion (x y : Regex α) :
    (absorbUnion x y).weight = x.weight + y.weight := by
  by_cases hx : x = empty
  · rw [hx, absorbUnion_empty_left, weight_empty, Nat.zero_add]
  · by_cases hy : y = empty
    · rw [hy, absorbUnion_empty_right, weight_empty, Nat.add_zero]
    · rw [absorbUnion_eq_union hx hy, weight_of_ne_empty (union_ne_empty x y),
        weight_of_ne_empty hx, weight_of_ne_empty hy, size_union]
      omega

theorem weight_absorbConcat_le (x y : Regex α) :
    (absorbConcat x y).weight ≤ x.weight + y.weight := by
  fun_cases absorbConcat x y with
  | case1 y => exact Nat.zero_le _
  | case2 x hx => exact Nat.zero_le _
  | case3 y hy => exact Nat.le_add_left _ _
  | case4 x hx hx' => exact Nat.le_add_right _ _
  | case5 x y hx hy hx' hy' =>
      rw [weight_of_ne_empty (concat_ne_empty x y), weight_of_ne_empty hx,
        weight_of_ne_empty hy, size_concat]
      omega

/-- A second part other than `empty` leaves the first part its weight. -/
theorem weight_le_weight_absorbConcat (x : Regex α) {y : Regex α} (h : y ≠ empty) :
    x.weight ≤ (absorbConcat x y).weight := by
  fun_cases absorbConcat x y with
  | case1 y => exact Nat.le_refl _
  | case2 x hx => exact absurd rfl h
  | case3 y hy =>
      have hepsilon : (epsilon : Regex α).weight = 2 := rfl
      have hsize := size_pos y
      rw [hepsilon, weight_of_ne_empty h]
      omega
  | case4 x hx hx' => exact Nat.le_refl _
  | case5 x y hx hy hx' hy' =>
      rw [weight_of_ne_empty (concat_ne_empty x y), weight_of_ne_empty hx, size_concat]
      omega

/-- The factor of a part is at most the factor of the whole. -/
theorem sq_size_succ_le {x r : Regex α} (h : x.size ≤ r.size) :
    x.size ^ 2 + 1 ≤ r.size ^ 2 + 1 :=
  Nat.succ_le_succ (Nat.pow_le_pow_left h 2)

/-- A balanced tree of unions, each of two equal parts, over copies of one
regex. -/
def doubled (r : Regex α) : Nat → Regex α
  | 0 => r
  | n + 1 => union (doubled r n) (doubled r n)

theorem size_doubled (r : Regex α) (n : Nat) :
    (doubled r n).size + 1 = 2 ^ n * (r.size + 1) := by
  induction n with
  | zero => rw [doubled, Nat.pow_zero, Nat.one_mul]
  | succ n ih =>
      rw [doubled, size_union, Nat.pow_succ, Nat.mul_right_comm, ← ih]
      omega

/-! ## Readings -/

variable [BEq α]

/-- A sum over the places at which a regex can be left in a word whose first part
`p` it has already read.  It is either kept to the end, which counts as `f` of all
that it has read, or left before a symbol, after a word that it describes, which
counts as `g` of what follows. -/
def sumSplits (x : Regex α) (f g : Word α → Nat) (p : Word α) : Word α → Nat
  | [] => f p
  | s :: w => (if x.Describes p then g (s :: w) else 0) + sumSplits x f g (p ++ [s]) w

/-- A sum over the ways to cut a word, whose first part `p` belongs to the first
piece, into pieces that are not empty and of which all but the last are described.
Each way counts as `f` of its last piece. -/
def sumPieces (x : Regex α) (f : Word α → Nat) (p : Word α) : Word α → Nat
  | [] => f p
  | s :: w => (if x.Describes p then sumPieces x f [s] w else 0) + sumPieces x f (p ++ [s]) w

/-- The number of ways in which a regex can read a word: at which of its symbols
the last symbol of the word is read, and how the word is cut before that into words
of the parts that are finished.  In a concatenation nothing is read when the second
part is barren. -/
def readings : Regex α → Word α → Nat
  | empty, _ => 0
  | epsilon, _ => 0
  | symbol a, w => if (symbol a).Describes w then 1 else 0
  | concat x y, w => if y.barren then 0 else sumSplits x x.readings y.readings [] w
  | union x y, w => x.readings w + y.readings w
  | star _, [] => 0
  | star x, s :: w => sumPieces x x.readings [s] w

theorem readings_nil (r : Regex α) : r.readings [] = 0 := by
  induction r with
  | empty => rfl
  | epsilon => rfl
  | symbol a => simp [readings, describes_symbol_iff]
  | concat x y ihx ihy => simp [readings, sumSplits, ihx]
  | union x y ihx ihy => simp [readings, ihx, ihy]
  | star x ih => rfl

/-- The places are the beginnings of the word that are followed by a symbol. -/
theorem sumSplits_eq_sum (x : Regex α) (f g : Word α → Nat) (p w : Word α) :
    sumSplits x f g p w = f (p ++ w) +
      ∑ i ∈ Finset.range w.length, if x.Describes (p ++ w.take i) then g (w.drop i) else 0 := by
  induction w generalizing p with
  | nil => simp [sumSplits]
  | cons s w ih =>
      have happend : ∀ v : Word α, (p ++ [s]) ++ v = p ++ s :: v := by
        intro v
        simp
      rw [sumSplits, ih (p ++ [s]), List.length_cons, Finset.sum_range_succ']
      simp only [happend, List.take_succ_cons, List.drop_succ_cons, List.take_zero,
        List.drop_zero, List.append_nil]
      omega

/-- To cut into pieces is to split where leaving a regex means to read it again. -/
theorem sumPieces_eq_sumSplits {x : Regex α} {f g : Word α → Nat}
    (hg : ∀ s w, g (s :: w) = sumPieces x f [s] w) (p w : Word α) :
    sumPieces x f p w = sumSplits x f g p w := by
  induction w generalizing p with
  | nil => rfl
  | cons s w ih => rw [sumSplits, sumPieces, hg, ih (p ++ [s])]

/-- Only cutting into pieces has this property. -/
theorem sumSplits_eq_sumPieces {x : Regex α} {f g : Word α → Nat}
    (hg : ∀ s w, g (s :: w) = sumSplits x f g [s] w) (p w : Word α) :
    sumSplits x f g p w = sumPieces x f p w := by
  induction w generalizing p with
  | nil => rfl
  | cons s w ih => rw [sumSplits, sumPieces, hg, ih [s], ih (p ++ [s])]

/-- A concatenation reads a word by its first part alone, or leaves the first part
at some place and reads the rest by the second part. -/
theorem readings_concat (x y : Regex α) (w : Word α) (hy : y.barren = false) :
    (concat x y).readings w = x.readings w +
      ∑ i ∈ Finset.range w.length,
        if x.Describes (w.take i) then y.readings (w.drop i) else 0 := by
  rw [readings, hy]
  exact sumSplits_eq_sum x x.readings y.readings [] w

/-- A star reads a word by its body alone, or finishes the body after a first word
that is not empty and reads the rest as a star. -/
theorem readings_star (x : Regex α) (s : α) (w : Word α) :
    x.star.readings (s :: w) = x.readings (s :: w) +
      ∑ i ∈ Finset.range w.length,
        if x.Describes (s :: w.take i) then x.star.readings (w.drop i) else 0 := by
  have hsplits : x.star.readings (s :: w) = sumSplits x x.readings x.star.readings [s] w :=
    sumPieces_eq_sumSplits (fun _ _ => rfl) [s] w
  rw [hsplits]
  exact sumSplits_eq_sum x x.readings x.star.readings [s] w

example : (symbol 'a').star.star.readings ['a', 'a', 'a', 'a'] = 8 := by decide

theorem sumSplits_le_mul {x : Regex α} {c : Nat} {f f' g g' : Word α → Nat}
    (hf : ∀ p, p ≠ [] → f p ≤ c * f' p) (hg : ∀ w, w ≠ [] → g w ≤ c * g' w)
    {p w : Word α} (h : p ++ w ≠ []) :
    sumSplits x f g p w ≤ c * sumSplits x f' g' p w := by
  induction w generalizing p with
  | nil =>
      rw [List.append_nil] at h
      exact hf p h
  | cons s w ih =>
      have hkept : sumSplits x f g (p ++ [s]) w ≤ c * sumSplits x f' g' (p ++ [s]) w :=
        ih (by simp)
      have hleft : (if x.Describes p then g (s :: w) else 0) ≤
          c * (if x.Describes p then g' (s :: w) else 0) := by
        by_cases hp : x.Describes p
        · rw [if_pos hp, if_pos hp]
          exact hg (s :: w) (List.cons_ne_nil s w)
        · rw [if_neg hp]
          exact Nat.zero_le _
      rw [sumSplits, sumSplits, Nat.mul_add]
      exact Nat.add_le_add hleft hkept

theorem sumPieces_le_mul {x : Regex α} {c : Nat} {f f' : Word α → Nat}
    (hf : ∀ p, p ≠ [] → f p ≤ c * f' p) {p : Word α} (hp : p ≠ []) (w : Word α) :
    sumPieces x f p w ≤ c * sumPieces x f' p w := by
  induction w generalizing p with
  | nil => exact hf p hp
  | cons s w ih =>
      have hkept : sumPieces x f (p ++ [s]) w ≤ c * sumPieces x f' (p ++ [s]) w :=
        ih (by simp)
      have hcut : (if x.Describes p then sumPieces x f [s] w else 0) ≤
          c * (if x.Describes p then sumPieces x f' [s] w else 0) := by
        by_cases hd : x.Describes p
        · rw [if_pos hd, if_pos hd]
          exact ih (List.cons_ne_nil s [])
        · rw [if_neg hd]
          exact Nat.zero_le _
      rw [sumPieces, sumPieces, Nat.mul_add]
      exact Nat.add_le_add hcut hkept

/-! ## Residual weights as sums -/

/-- The weight of what is left of a regex after a word, with absorption at the
end. -/
def weightAfter (r : Regex α) (w : Word α) : Nat :=
  (r.derivativeBy w).normalForm.weight

/-- The weight of what is left of a concatenation after a word that is read by the
first part alone. -/
def weightInFirst (x y : Regex α) (p : Word α) : Nat :=
  (absorbConcat (x.derivativeBy p).normalForm y.normalForm).weight

theorem weightAfter_of_barren {r : Regex α} (h : r.barren = true) (w : Word α) :
    r.weightAfter w = 0 := by
  rw [weightAfter, normalForm_derivativeBy_of_barren h, weight_empty]

theorem weightAfter_epsilon_cons (s : α) (w : Word α) :
    (epsilon : Regex α).weightAfter (s :: w) = 0 := by
  change (empty : Regex α).weightAfter w = 0
  exact weightAfter_of_barren rfl w

/-- Where a symbol is read, `epsilon` is left. -/
theorem weightAfter_symbol_cons (a s : α) (w : Word α) :
    (symbol a).weightAfter (s :: w) = 2 * (symbol a).readings (s :: w) := by
  have hreadings : (symbol a).readings (s :: w) = if (a == s) = true ∧ w = [] then 1 else 0 := by
    simp only [readings, describes_symbol_cons_iff]
  change ((symbol a).derivative s).weightAfter w = _
  rw [hreadings, derivative_symbol]
  by_cases h : (a == s) = true
  · rw [if_pos h]
    cases w with
    | nil =>
        rw [if_pos ⟨h, rfl⟩]
        rfl
    | cons t w =>
        have hnone : ¬((a == s) = true ∧ t :: w = []) := fun hw => List.cons_ne_nil t w hw.2
        rw [if_neg hnone, weightAfter_epsilon_cons]
  · have hnone : ¬((a == s) = true ∧ w = []) := fun hw => h hw.1
    rw [if_neg h, if_neg hnone, weightAfter_of_barren rfl]

theorem weightAfter_union (x y : Regex α) (w : Word α) :
    (union x y).weightAfter w = x.weightAfter w + y.weightAfter w := by
  rw [weightAfter, derivativeBy_union, normalForm_union, weight_absorbUnion]
  rfl

theorem weightAfter_concat (x y : Regex α) (p w : Word α) :
    (concat (x.derivativeBy p) y).weightAfter w =
      sumSplits x (weightInFirst x y) y.weightAfter p w := by
  -- Induction on what follows `p`; each symbol is read after leaving `x` or moves
  -- into `p`.
  induction w generalizing p with
  | nil => rfl
  | cons s w ih =>
      calc
        (concat (x.derivativeBy p) y).weightAfter (s :: w) =
            (absorbUnion (if x.Describes p then (y.derivativeBy (s :: w)).normalForm else empty)
              ((concat (x.derivativeBy (p ++ [s])) y).derivativeBy w).normalForm).weight := by
            rw [weightAfter, normalForm_derivativeBy_concat_cons]
        _ = (if x.Describes p then y.weightAfter (s :: w) else 0) +
              (concat (x.derivativeBy (p ++ [s])) y).weightAfter w := by
            rw [weight_absorbUnion, apply_ite weight, weight_empty]
            rfl
        _ = (if x.Describes p then y.weightAfter (s :: w) else 0) +
              sumSplits x (weightInFirst x y) y.weightAfter (p ++ [s]) w := by
            rw [ih (p ++ [s])]
        _ = sumSplits x (weightInFirst x y) y.weightAfter p (s :: w) := rfl

theorem weightAfter_star (x : Regex α) (s : α) (w : Word α) :
    x.star.weightAfter (s :: w) = sumPieces x (weightInFirst x x.star) [s] w := by
  -- After one symbol a star is a concatenation that ends with the star itself.
  have hloop : ∀ (s : α) (w : Word α), x.star.weightAfter (s :: w) =
      sumSplits x (weightInFirst x x.star) x.star.weightAfter [s] w :=
    fun s w => weightAfter_concat x x.star [s] w
  rw [hloop, sumSplits_eq_sumPieces hloop]

/-! ## Readings and sizes bound each other -/

theorem weightAfter_le_weightInFirst (x : Regex α) {y : Regex α} (hy : y.barren = false)
    (p : Word α) : x.weightAfter p ≤ weightInFirst x y p := by
  have hne : y.normalForm ≠ empty := by
    rw [← isEmpty_eq_false_iff, isEmpty_normalForm, hy]
  exact weight_le_weight_absorbConcat _ hne

/-- A second part adds its nodes once for each reading of the first part. -/
theorem weightInFirst_le_mul {x y : Regex α} {p : Word α} {c k : Nat}
    (h : x.weightAfter p ≤ c * k) : weightInFirst x y p ≤ (c + y.size + 1) * k := by
  by_cases hx : (x.derivativeBy p).normalForm = empty
  · rw [weightInFirst, hx, absorbConcat_empty_left]
    exact Nat.zero_le _
  · -- Something is left, so there is a reading to which the second part belongs.
    have hk : 0 < k := by
      apply Nat.pos_of_ne_zero
      rintro rfl
      rw [weightAfter, weight_of_ne_empty hx] at h
      omega
    have hy : y.normalForm.weight ≤ (y.size + 1) * k :=
      calc
        y.normalForm.weight ≤ y.normalForm.size + 1 := weight_le_size_succ _
        _ ≤ y.size + 1 := Nat.succ_le_succ (size_normalForm_le y)
        _ ≤ (y.size + 1) * k := Nat.le_mul_of_pos_right _ hk
    calc
      weightInFirst x y p ≤ x.weightAfter p + y.normalForm.weight := weight_absorbConcat_le _ _
      _ ≤ c * k + (y.size + 1) * k := Nat.add_le_add h hy
      _ = (c + y.size + 1) * k := by ring

theorem readings_le_weightAfter (r : Regex α) {w : Word α} (hw : w ≠ []) :
    r.readings w ≤ r.weightAfter w := by
  -- Induction on the regex, for all words at once: the parts read pieces of the word.
  induction r generalizing w with
  | empty => exact Nat.zero_le _
  | epsilon => exact Nat.zero_le _
  | symbol a =>
      obtain ⟨s, w, rfl⟩ := List.exists_cons_of_ne_nil hw
      rw [weightAfter_symbol_cons]
      omega
  | concat x y ihx ihy =>
      rw [readings]
      cases hy : y.barren with
      | true => exact Nat.zero_le _
      | false =>
          have hkept : ∀ p, p ≠ [] → x.readings p ≤ 1 * weightInFirst x y p := by
            intro p hp
            rw [Nat.one_mul]
            exact (ihx hp).trans (weightAfter_le_weightInFirst x hy p)
          have hleft : ∀ v, v ≠ [] → y.readings v ≤ 1 * y.weightAfter v := by
            intro v hv
            rw [Nat.one_mul]
            exact ihy hv
          have hsum := sumSplits_le_mul (x := x) hkept hleft (p := []) hw
          rw [Nat.one_mul, ← weightAfter_concat] at hsum
          exact hsum
  | union x y ihx ihy =>
      rw [readings, weightAfter_union]
      exact Nat.add_le_add (ihx hw) (ihy hw)
  | star x ih =>
      obtain ⟨s, w, rfl⟩ := List.exists_cons_of_ne_nil hw
      have hlast : ∀ p, p ≠ [] → x.readings p ≤ 1 * weightInFirst x x.star p := by
        intro p hp
        rw [Nat.one_mul]
        exact (ih hp).trans (weightAfter_le_weightInFirst x rfl p)
      have hsum := sumPieces_le_mul (x := x) hlast (List.cons_ne_nil s []) w
      rw [Nat.one_mul, ← weightAfter_star] at hsum
      exact hsum

theorem weightAfter_le_mul_readings (r : Regex α) {w : Word α} (hw : w ≠ []) :
    r.weightAfter w ≤ (r.size ^ 2 + 1) * r.readings w := by
  induction r generalizing w with
  | empty =>
      rw [weightAfter_of_barren rfl]
      exact Nat.zero_le _
  | epsilon =>
      obtain ⟨s, w, rfl⟩ := List.exists_cons_of_ne_nil hw
      rw [weightAfter_epsilon_cons]
      exact Nat.zero_le _
  | symbol a =>
      obtain ⟨s, w, rfl⟩ := List.exists_cons_of_ne_nil hw
      rw [weightAfter_symbol_cons, size_symbol]
      exact Nat.le_refl _
  | concat x y ihx ihy =>
      rw [readings]
      cases hy : y.barren with
      | true =>
          have hbarren : (concat x y).barren = true := by
            rw [barren, hy, Bool.or_true]
          rw [weightAfter_of_barren hbarren]
          exact Nat.zero_le _
      | false =>
          have hfirst : x.size ^ 2 + 1 + y.size + 1 ≤ (concat x y).size ^ 2 + 1 := by
            rw [size_concat]
            nlinarith [Nat.zero_le (x.size * y.size), Nat.zero_le (y.size * y.size)]
          have hsecond : y.size ^ 2 + 1 ≤ (concat x y).size ^ 2 + 1 :=
            sq_size_succ_le (Nat.le_add_left _ _)
          have hkept : ∀ p, p ≠ [] →
              weightInFirst x y p ≤ ((concat x y).size ^ 2 + 1) * x.readings p := by
            intro p hp
            exact (weightInFirst_le_mul (ihx hp)).trans (Nat.mul_le_mul_right _ hfirst)
          have hleft : ∀ v, v ≠ [] →
              y.weightAfter v ≤ ((concat x y).size ^ 2 + 1) * y.readings v := by
            intro v hv
            exact (ihy hv).trans (Nat.mul_le_mul_right _ hsecond)
          calc
            (concat x y).weightAfter w = sumSplits x (weightInFirst x y) y.weightAfter [] w :=
              weightAfter_concat x y [] w
            _ ≤ ((concat x y).size ^ 2 + 1) * sumSplits x x.readings y.readings [] w :=
              sumSplits_le_mul hkept hleft hw
  | union x y ihx ihy =>
      have hx : x.size ^ 2 + 1 ≤ (union x y).size ^ 2 + 1 :=
        sq_size_succ_le (by rw [size_union]; omega)
      have hy : y.size ^ 2 + 1 ≤ (union x y).size ^ 2 + 1 :=
        sq_size_succ_le (Nat.le_add_left _ _)
      rw [readings, weightAfter_union, Nat.mul_add]
      exact Nat.add_le_add ((ihx hw).trans (Nat.mul_le_mul_right _ hx))
        ((ihy hw).trans (Nat.mul_le_mul_right _ hy))
  | star x ih =>
      obtain ⟨s, w, rfl⟩ := List.exists_cons_of_ne_nil hw
      have hbody : x.size ^ 2 + 1 + x.star.size + 1 ≤ x.star.size ^ 2 + 1 := by
        have hpos := size_pos x
        rw [size_star]
        nlinarith
      have hlast : ∀ p, p ≠ [] →
          weightInFirst x x.star p ≤ (x.star.size ^ 2 + 1) * x.readings p := by
        intro p hp
        exact (weightInFirst_le_mul (ih hp)).trans (Nat.mul_le_mul_right _ hbody)
      rw [weightAfter_star]
      exact sumPieces_le_mul hlast (List.cons_ne_nil s []) w

/-- A residual has a node for each reading of the word, up to one. -/
theorem readings_le_size_residualBy (r : Regex α) (s : α) (w : Word α) :
    r.readings (s :: w) ≤ (r.residualBy (s :: w)).size + 1 := by
  rw [residualBy_cons_eq_normalForm]
  exact (readings_le_weightAfter r (List.cons_ne_nil s w)).trans (weight_le_size_succ _)

/-- A residual has boundedly many nodes for each reading of the word, up to one. -/
theorem size_residualBy_le_mul_readings (r : Regex α) (s : α) (w : Word α) :
    (r.residualBy (s :: w)).size ≤ (r.size ^ 2 + 1) * r.readings (s :: w) + 1 := by
  rw [residualBy_cons_eq_normalForm]
  exact (size_le_weight_succ _).trans
    (Nat.succ_le_succ (weightAfter_le_mul_readings r (List.cons_ne_nil s w)))

/-! ## A star of a star -/

/-- A residual that consists of the regex twice is doubled again by every further
symbol. -/
theorem residualBy_doubled {r : Regex α} {s : α} (h : r.residual s = union r r) (m n : Nat) :
    (doubled r m).residualBy (List.replicate n s) = doubled r (m + n) := by
  have hstep : ∀ m, (doubled r m).residual s = doubled r (m + 1) := by
    intro m
    induction m with
    | zero => exact h
    | succ m ih =>
        rw [doubled, residual_union, ih]
        rfl
  induction n generalizing m with
  | zero => rfl
  | succ n ih =>
      rw [List.replicate_succ, residualBy_cons, hstep, ih, Nat.add_right_comm, Nat.add_assoc]

/-- After each symbol the inner star goes on or the outer one starts it again, and
both leave the same regex. -/
theorem residualBy_star_star {a s : α} (h : (a == s) = true) (n : Nat) :
    (symbol a).star.star.residualBy (List.replicate (n + 1) s) =
      doubled (concat (symbol a).star (symbol a).star.star) n := by
  have hsymbol : (symbol a).residual s = epsilon := by
    rw [residual_symbol, if_pos h]
  have hinner : (symbol a).star.residual s = (symbol a).star := by
    rw [residual_star, hsymbol, absorbConcat_epsilon_left, normalForm_symbol]
  have houter : (symbol a).star.star.residual s =
      concat (symbol a).star (symbol a).star.star := by
    rw [residual_star, hinner]
    rfl
  have htwice : (concat (symbol a).star (symbol a).star.star).residual s =
      union (concat (symbol a).star (symbol a).star.star)
        (concat (symbol a).star (symbol a).star.star) := by
    rw [residual_concat, houter, hinner]
    rfl
  rw [List.replicate_succ, residualBy_cons, houter]
  simpa [doubled] using residualBy_doubled htwice 0 n

theorem size_residualBy_star_star {a s : α} (h : (a == s) = true) (n : Nat) :
    ((symbol a).star.star.residualBy (List.replicate (n + 1) s)).size + 1 = 2 ^ n * 7 := by
  rw [residualBy_star_star h, size_doubled]
  rfl

/-! ## When sizes are bounded -/

/-- The sizes met while reading words are bounded exactly when the numbers of
readings of the words are. -/
theorem size_bounded_iff_readings_bounded (r : Regex α) :
    (∃ bound, ∀ w : Word α, ((Recognizer.start r).readAll w).current.size ≤ bound) ↔
      ∃ bound, ∀ w : Word α, r.readings w ≤ bound := by
  simp only [Recognizer.current_readAll_start]
  constructor
  · rintro ⟨bound, hbound⟩
    refine ⟨bound + 1, fun w => ?_⟩
    cases w with
    | nil =>
        rw [readings_nil]
        exact Nat.zero_le _
    | cons s w =>
        exact (readings_le_size_residualBy r s w).trans (Nat.succ_le_succ (hbound (s :: w)))
  · rintro ⟨bound, hbound⟩
    refine ⟨r.size + (r.size ^ 2 + 1) * bound + 1, fun w => ?_⟩
    cases w with
    | nil =>
        rw [residualBy_nil, Nat.add_assoc]
        exact Nat.le_add_right _ _
    | cons s w =>
        have hsize := size_residualBy_le_mul_readings r s w
        have hmul : (r.size ^ 2 + 1) * r.readings (s :: w) ≤ (r.size ^ 2 + 1) * bound :=
          Nat.mul_le_mul_left _ (hbound (s :: w))
        omega

/-- The sizes met while reading words are not bounded for a star of a star. -/
theorem not_size_bounded_star_star :
    ¬∃ bound, ∀ w : Word Char,
      ((Recognizer.start (symbol 'a').star.star).readAll w).current.size ≤ bound := by
  rintro ⟨bound, hbound⟩
  have hequal : ('a' == 'a') = true := rfl
  have hsize := size_residualBy_star_star hequal bound
  have hle := hbound (List.replicate (bound + 1) 'a')
  rw [Recognizer.current_readAll_start] at hle
  have hlt : bound < 2 ^ bound := Nat.lt_two_pow_self
  omega

end Regex
end RegexDerivatives
