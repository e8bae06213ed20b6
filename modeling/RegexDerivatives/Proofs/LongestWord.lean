import Mathlib.Algebra.Order.Monoid.WithTop
import Mathlib.Algebra.Order.Ring.Nat
import Mathlib.Data.Nat.Cast.Order.Basic
import Mathlib.Order.Lattice.Nat
import RegexDerivatives.Proofs.EarlyStop

/-!
# Regexes whose words are bounded

How long a word of a regex can be at most is read off the tree, without comparing symbols:
`⊥` stands for no word at all, and a star counts as `⊤`.  A derivative can be larger than
its regex, because it keeps the second part of a concatenation twice; but every symbol that
is read lowers this bound by one, and absorption leaves it as it is.

A regex without stars is bounded by the number of its symbols.  A recognizer of it is
therefore dead once it has read more symbols than that, whether they matched or not, and a
scan of it stops on every stream.
-/

namespace RegexDerivatives

universe u

variable {α : Type u}

namespace Regex

/-- A bound for some lengths: `⊥` when there are none and `⊤` when they are unbounded. -/
abbrev Bound : Type := WithBot (WithTop Nat)

/-- A bound for the lengths of the words of a regex. -/
def longest : Regex α → Bound
  | empty => ⊥
  | epsilon => 0
  | symbol _ => 1
  | concat x y => x.longest + y.longest
  | union x y => x.longest ⊔ y.longest
  | star _ => ⊤

@[simp] theorem longest_empty : (empty : Regex α).longest = ⊥ := rfl
@[simp] theorem longest_epsilon : (epsilon : Regex α).longest = 0 := rfl
@[simp] theorem longest_symbol (a : α) : (symbol a).longest = 1 := rfl

@[simp] theorem longest_concat (x y : Regex α) :
    (concat x y).longest = x.longest + y.longest := rfl

@[simp] theorem longest_union (x y : Regex α) :
    (union x y).longest = x.longest ⊔ y.longest := rfl

@[simp] theorem longest_star (x : Regex α) : (star x).longest = ⊤ := rfl

/-! ## The bound and the tree -/

/-- No length is possible exactly for the barren regexes. -/
theorem longest_eq_bot_iff {r : Regex α} : r.longest = ⊥ ↔ r.barren = true := by
  induction r with
  | empty => simp [barren]
  | epsilon => simp [barren]
  | symbol a => simp [barren]
  | concat x y ihx ihy =>
      rw [longest_concat, WithBot.add_eq_bot, ihx, ihy, barren, Bool.or_eq_true]
  | union x y ihx ihy =>
      rw [longest_union, sup_eq_bot_iff, ihx, ihy, barren, Bool.and_eq_true]
  | star x ih => simp [barren]

/-- Some length is possible for all other regexes. -/
theorem zero_le_longest_iff {r : Regex α} : 0 ≤ r.longest ↔ r.barren = false := by
  rw [← Bool.not_eq_true, ← longest_eq_bot_iff]
  constructor
  · intro h hbot
    rw [hbot] at h
    exact absurd h (WithBot.bot_lt_coe 0).not_ge
  · intro h
    obtain ⟨n, hn⟩ := WithBot.ne_bot_iff_exists.1 h
    rw [← hn]
    exact WithBot.coe_le_coe.2 zero_le

theorem zero_le_longest_of_nullable {r : Regex α} (h : r.nullable = true) : 0 ≤ r.longest := by
  rw [zero_le_longest_iff, ← isEmpty_normalForm, isEmpty_eq_false_iff]
  intro hempty
  rw [← nullable_normalForm, hempty] at h
  contradiction

theorem longest_epsilonPart_le (r : Regex α) : r.epsilonPart.longest ≤ r.longest := by
  cases h : r.nullable with
  | true =>
      rw [epsilonPart_of_nullable h]
      exact zero_le_longest_of_nullable h
  | false =>
      rw [epsilonPart_of_not_nullable h]
      exact bot_le

theorem longest_absorbConcat (x y : Regex α) :
    (absorbConcat x y).longest = x.longest + y.longest := by
  fun_cases absorbConcat x y with
  | case1 y => rw [longest_empty, WithBot.bot_add]
  | case2 x hx => rw [longest_empty, WithBot.add_bot]
  | case3 y hy => rw [longest_epsilon, zero_add]
  | case4 x hx hx' => rw [longest_epsilon, add_zero]
  | case5 x y hx hy hx' hy' => rw [longest_concat]

theorem longest_absorbUnion (x y : Regex α) :
    (absorbUnion x y).longest = x.longest ⊔ y.longest := by
  fun_cases absorbUnion x y with
  | case1 y => rw [longest_empty, bot_sup_eq]
  | case2 x hx => rw [longest_empty, sup_bot_eq]
  | case3 x y hx hy => rw [longest_union]

/-- Absorption leaves the bound as it is. -/
theorem longest_normalForm (r : Regex α) : r.normalForm.longest = r.longest := by
  induction r with
  | empty => rfl
  | epsilon => rfl
  | symbol a => rfl
  | concat x y ihx ihy => rw [normalForm_concat, longest_absorbConcat, ihx, ihy, longest_concat]
  | union x y ihx ihy => rw [normalForm_union, longest_absorbUnion, ihx, ihy, longest_union]
  | star x ih => rfl

/-- Without stars, the bound is at most the number of symbols. -/
theorem longest_le_symbolCount {r : Regex α} (h : r.starFree = true) :
    r.longest ≤ (r.symbolCount : Bound) := by
  induction r with
  | empty => exact bot_le
  | epsilon => exact le_rfl
  | symbol a => exact le_rfl
  | concat x y ihx ihy =>
      obtain ⟨hx, hy⟩ := Bool.and_eq_true_iff.1 h
      rw [longest_concat, symbolCount, Nat.cast_add]
      exact add_le_add (ihx hx) (ihy hy)
  | union x y ihx ihy =>
      obtain ⟨hx, hy⟩ := Bool.and_eq_true_iff.1 h
      rw [longest_union, symbolCount, Nat.cast_add]
      exact max_le ((ihx hx).trans (le_add_of_nonneg_right (Nat.cast_nonneg' _)))
        ((ihy hy).trans (le_add_of_nonneg_left (Nat.cast_nonneg' _)))
  | star x ih => simp [starFree] at h

/-! ## The bound along a word -/

variable [BEq α]

/-- Reading a symbol lowers the bound. -/
theorem longest_derivative_add_one_le (r : Regex α) (s : α) :
    (r.derivative s).longest + 1 ≤ r.longest := by
  induction r with
  | empty => exact le_rfl
  | epsilon => exact bot_le
  | symbol a =>
      rw [derivative_symbol]
      split
      · exact le_rfl
      · exact bot_le
  | concat x y ihx ihy =>
      have hsecond : x.epsilonPart.longest + (y.derivative s).longest + 1 ≤
          x.longest + y.longest := by
        rw [add_assoc]
        exact add_le_add (longest_epsilonPart_le x) ihy
      have hfirst : (x.derivative s).longest + y.longest + 1 ≤ x.longest + y.longest := by
        rw [add_right_comm]
        exact add_le_add ihx le_rfl
      rw [derivative_concat, longest_union, longest_concat, longest_concat, longest_concat,
        ← max_add_add_right]
      exact max_le hsecond hfirst
  | union x y ihx ihy =>
      rw [derivative_union, longest_union, longest_union, ← max_add_add_right]
      exact max_le_max ihx ihy
  | star x ih => exact le_top

theorem longest_residual_add_one_le (r : Regex α) (s : α) :
    (r.residual s).longest + 1 ≤ r.longest := by
  rw [residual, longest_normalForm]
  exact longest_derivative_add_one_le r s

theorem longest_residualBy_add_length_le (r : Regex α) (w : Word α) :
    (r.residualBy w).longest + (w.length : Bound) ≤ r.longest := by
  induction w generalizing r with
  | nil => rw [residualBy_nil, List.length_nil, Nat.cast_zero, add_zero]
  | cons s w ih =>
      rw [residualBy_cons, List.length_cons, Nat.cast_succ, ← add_assoc]
      exact (add_le_add (ih (r.residual s)) le_rfl).trans (longest_residual_add_one_le r s)

/-- No word of a regex is longer than its bound. -/
theorem length_le_longest_of_describes {r : Regex α} {w : Word α} (h : r.Describes w) :
    (w.length : Bound) ≤ r.longest := by
  have hzero : 0 ≤ (r.residualBy w).longest :=
    zero_le_longest_of_nullable (nullable_residualBy_iff.2 h)
  exact (le_add_of_nonneg_left hzero).trans (longest_residualBy_add_length_le r w)

/-- What is left to match has a word as far as the tree can tell, unless nothing is left. -/
theorem zero_le_longest_residual {r : Regex α} {s : α} (h : r.residual s ≠ empty) :
    0 ≤ (r.residual s).longest := by
  rw [residual, longest_normalForm, zero_le_longest_iff, ← isEmpty_normalForm,
    isEmpty_eq_false_iff]
  exact h

/-- Behind more symbols than the bound allows nothing is left to match. -/
theorem residualBy_eq_empty_of_longest_lt {r : Regex α} {w : Word α} (hw : w ≠ [])
    (h : r.longest < (w.length : Bound)) : r.residualBy w = empty := by
  obtain ⟨v, s, rfl⟩ : ∃ v s, w = v ++ [s] :=
    ⟨w.dropLast, w.getLast hw, (List.dropLast_concat_getLast hw).symm⟩
  by_contra hne
  have hlast : r.residualBy (v ++ [s]) = (r.residualBy v).residual s := residualBy_append r v [s]
  have hzero : 0 ≤ (r.residualBy (v ++ [s])).longest := by
    rw [hlast] at hne ⊢
    exact zero_le_longest_residual hne
  have hlength : ((v ++ [s]).length : Bound) ≤ r.longest :=
    (le_add_of_nonneg_left hzero).trans (longest_residualBy_add_length_le r (v ++ [s]))
  exact absurd h hlength.not_gt

/-- Without stars nothing is left behind more symbols than the regex has. -/
theorem residualBy_eq_empty_of_symbolCount_lt {r : Regex α} (h : r.starFree = true) {w : Word α}
    (hw : r.symbolCount < w.length) : r.residualBy w = empty := by
  have hne : w ≠ [] := List.ne_nil_of_length_pos (Nat.zero_lt_of_lt hw)
  have hlt : (r.symbolCount : Bound) < (w.length : Bound) := Nat.cast_lt.2 hw
  exact residualBy_eq_empty_of_longest_lt hne ((longest_le_symbolCount h).trans_lt hlt)

end Regex

namespace Recognizer

variable [BEq α]

/-! ## Scans of regexes without stars -/

theorem consumed_scan_le_of_starFree {m : Recognizer α} (h : m.pattern.starFree = true)
    (v : Verbosity) (w : Word α) :
    (m.scan v w).recognizer.consumed ≤ m.pattern.symbolCount + 1 := by
  rw [consumed_scan]
  rcases Nat.lt_or_ge m.pattern.symbolCount w.length with hlt | hge
  · -- After one symbol more than the pattern has, the scan has stopped.
    have htake : (w.take (m.pattern.symbolCount + 1)).length = m.pattern.symbolCount + 1 :=
      List.length_take_of_le hlt
    apply (m.pattern.isLeast_length_readPart w).2
    right
    refine ⟨hlt, Regex.residualBy_eq_empty_of_symbolCount_lt h ?_⟩
    rw [htake]
    exact Nat.lt_succ_self _
  · exact (m.pattern.length_readPart_le w).trans (Nat.le_succ_of_le hge)

theorem pulled_scan_le_of_starFree {m : Recognizer α} (h : m.pattern.starFree = true)
    (v : Verbosity) (w : Word α) : (m.scan v w).pulled ≤ m.pattern.symbolCount + 2 := by
  have hconsumed := consumed_scan_le_of_starFree h v w
  rw [consumed_scan] at hconsumed
  have hpulled : (m.scan v w).pulled = min ((m.pattern.readPart w).length + 1) w.length :=
    pulled_scanOn v m.restart w
  omega

/-- A regex without stars is dead behind more symbols than it has, so it accepts no longer
word.  A scan of it reads at most one symbol more than it has and takes at most two more, and
whatever follows those symbols makes no difference. -/
theorem scan_stops_of_starFree {m : Recognizer α} (h : m.pattern.starFree = true) :
    (∀ w : Word α, m.pattern.symbolCount < w.length →
        (m.restart.readAll w).current = .empty ∧ m.pattern.accepts w = false) ∧
      ∀ (v : Verbosity) (w : Word α),
        (m.scan v w).recognizer.consumed ≤ m.pattern.symbolCount + 1 ∧
          (m.scan v w).pulled ≤ m.pattern.symbolCount + 2 ∧
          m.scan v w = m.scan v (w.take (m.pattern.symbolCount + 2)) ∧
          ((m.scan v w).accepted = true → w.length ≤ m.pattern.symbolCount) := by
  have hdead : ∀ w : Word α, m.pattern.symbolCount < w.length →
      m.pattern.residualBy w = .empty := by
    intro w hw
    exact Regex.residualBy_eq_empty_of_symbolCount_lt h hw
  refine ⟨fun w hw => ⟨?_, ?_⟩, fun v w => ⟨?_, ?_, ?_, ?_⟩⟩
  · rw [restart_eq_start, current_readAll_start]
    exact hdead w hw
  · rw [Regex.accepts_eq_nullable_residualBy, hdead w hw]
    rfl
  · exact consumed_scan_le_of_starFree h v w
  · exact pulled_scan_le_of_starFree h v w
  · exact (scanOn_take (pulled_scan_le_of_starFree h v w)).symm
  · intro haccepted
    rw [accepted_scan, Regex.nullable_residualBy_iff] at haccepted
    have hlength : (w.length : Regex.Bound) ≤ m.pattern.symbolCount :=
      (Regex.length_le_longest_of_describes haccepted).trans (Regex.longest_le_symbolCount h)
    exact Nat.cast_le.1 hlength

/-- Two symbols of which the first may be missing, read against a longer word. -/
theorem scan_stops_of_starFree_ab :
    let m : Recognizer Char :=
      start (.concat (.union (.symbol 'a') .epsilon) (.symbol 'b'))
    let w : Word Char := ['a', 'b', 'a', 'b', 'a']
    m.pattern.starFree = true ∧ m.pattern.symbolCount < w.length ∧
      (m.restart.readAll w).current = .empty ∧
      (m.scan .trace w).recognizer.consumed ≤ 3 ∧
      m.scan .trace w = m.scan .trace ['a', 'b', 'a', 'b'] := by
  intro m w
  have h : m.pattern.starFree = true := rfl
  have hw : m.pattern.symbolCount < w.length := by decide
  obtain ⟨hdead, hscan⟩ := scan_stops_of_starFree h
  exact ⟨h, hw, (hdead w hw).1, (hscan .trace w).1, (hscan .trace w).2.2.1⟩

end Recognizer
end RegexDerivatives
