import Mathlib.Algebra.Order.BigOperators.Group.List
import Mathlib.Data.List.Shortlex
import RegexDerivatives.Recognizer.Survey
import RegexDerivatives.Proofs.EarlyStop

/-!
# What a survey finds

A survey goes on with the recognizer that the last scan has left.  Since a scan starts over,
each word is nevertheless scanned as by a recognizer of its own (`survey_eq`), so a survey up
to a length finds the words of the regex up to that length:

* `mem_accepted_survey_iff` — these words and no others are accepted;
* `pairwise_accepted_survey` — they are listed by their length and then in the order of the
  alphabet;
* `nodup_accepted_survey` — none of them is listed twice;
* `consumed_survey_le` — no word costs more symbols than the length allows.
-/

namespace RegexDerivatives

universe u

variable {α : Type u}

namespace Word

/-! ## The order in which words are tried -/

/-- What is appended to words of one length does not change their order. -/
theorem lex_append {lt : α → α → Prop} {u w : Word α} (h : List.Lex lt u w)
    (hlength : u.length = w.length) (s t : Word α) : List.Lex lt (u ++ s) (w ++ t) := by
  induction h with
  | nil => contradiction
  | cons _ ih => exact .cons (ih (Nat.succ.inj hlength))
  | rel hlt => exact .rel hlt

theorem length_eq_of_mem_ofLength {alphabet u w : Word α} {n : Nat} (hu : u ∈ ofLength alphabet n)
    (hw : w ∈ ofLength alphabet n) : u.length = w.length := by
  rw [(mem_ofLength.1 hu).1, (mem_ofLength.1 hw).1]

theorem pairwise_lex_ofLength {lt : α → α → Prop} {alphabet : Word α} (h : alphabet.Pairwise lt)
    (n : Nat) : (ofLength alphabet n).Pairwise (List.Lex lt) := by
  induction n with
  | zero => exact List.pairwise_singleton _ _
  | succ n ih =>
      rw [ofLength_succ, extendEach, List.pairwise_flatMap]
      constructor
      · intro w _
        rw [List.pairwise_map]
        exact h.imp fun hlt => List.Lex.append_left lt (.rel hlt) w
      · apply ih.imp_of_mem
        intro u w hu hw hlex x hx y hy
        obtain ⟨a, -, rfl⟩ := List.mem_map.1 hx
        obtain ⟨b, -, rfl⟩ := List.mem_map.1 hy
        exact lex_append hlex (length_eq_of_mem_ofLength hu hw) [a] [b]

/-- Shorter words are tried first, and words of one length in the order of the alphabet. -/
theorem pairwise_shortlex_upToLength {lt : α → α → Prop} {alphabet : Word α}
    (h : alphabet.Pairwise lt) (n : Nat) :
    (upToLength alphabet n).Pairwise (List.Shortlex lt) := by
  induction n with
  | zero => exact List.pairwise_singleton _ _
  | succ n ih =>
      rw [upToLength, List.pairwise_append]
      refine ⟨ih, ?_, ?_⟩
      · apply (pairwise_lex_ofLength h (n + 1)).imp_of_mem
        intro u w hu hw hlex
        exact .of_lex (length_eq_of_mem_ofLength hu hw) hlex
      · intro u hu w hw
        apply List.Shortlex.of_length_lt
        rw [(mem_ofLength.1 hw).1]
        exact Nat.lt_succ_of_le (mem_upToLength.1 hu).1

end Word

variable [BEq α]

namespace Recognizer

/-! ## One scan for each word -/

/-- A survey scans each word of the list as the pattern alone would. -/
theorem survey_eq (v : Verbosity) (m : Recognizer α) (words : List (Word α)) :
    m.survey v words =
      { accepted := words.filter m.pattern.accepts
        tried := words.length
        consumed := (words.map fun w => (m.pattern.readPart w).length).sum
        events := words.flatMap fun w => (m.pattern.scan v w).events } := by
  induction words generalizing m with
  | nil => rfl
  | cons w words ih =>
      have hevents : (m.scan v w).events = (m.pattern.scan v w).events :=
        congrArg Outcome.events (scan_eq_scan_start v m w)
      simp only [survey, ih, pattern_scan, accepted_scan_eq_accepts, consumed_scan, hevents,
        List.filter_cons, List.length_cons, List.map_cons, List.sum_cons, List.flatMap_cons]

end Recognizer

namespace Regex

/-! ## All words up to a length -/

/-- A survey accepts the described words up to its length over its alphabet. -/
theorem mem_accepted_survey_iff {v : Verbosity} {r : Regex α} {alphabet : Word α} {n : Nat}
    {w : Word α} :
    w ∈ (r.survey v alphabet n).accepted ↔
      r.Describes w ∧ w.length ≤ n ∧ ∀ a ∈ w, a ∈ alphabet := by
  rw [survey, Recognizer.survey_eq, List.mem_filter, Word.mem_upToLength, and_comm]
  exact and_congr_left' accepts_eq_true_iff

example : ((star (symbol 'a')).survey .silent ['a', 'b'] 2).accepted = [[], ['a'], ['a', 'a']] := by
  decide

/-- The accepted words are listed by their length and then in the order of the alphabet. -/
theorem pairwise_accepted_survey {lt : α → α → Prop} {alphabet : Word α}
    (h : alphabet.Pairwise lt) (v : Verbosity) (r : Regex α) (n : Nat) :
    (r.survey v alphabet n).accepted.Pairwise (List.Shortlex lt) := by
  rw [survey, Recognizer.survey_eq]
  exact (Word.pairwise_shortlex_upToLength h n).filter _

/-- No word is accepted twice, unless the alphabet has a symbol twice. -/
theorem nodup_accepted_survey {alphabet : Word α} (h : alphabet.Nodup) (v : Verbosity)
    (r : Regex α) (n : Nat) : (r.survey v alphabet n).accepted.Nodup := by
  apply (pairwise_accepted_survey h v r n).imp
  intro u w hshortlex
  rcases List.shortlex_def.1 hshortlex with hlength | ⟨-, hlex⟩
  · rintro rfl
    exact Nat.lt_irrefl _ hlength
  · exact hlex.to_ne

/-- For no word more symbols are read than the length allows. -/
theorem consumed_survey_le (v : Verbosity) (r : Regex α) (alphabet : Word α) (n : Nat) :
    (r.survey v alphabet n).consumed ≤ (r.survey v alphabet n).tried * n := by
  have hword : ∀ w ∈ Word.upToLength alphabet n, (r.readPart w).length ≤ n :=
    fun w hw => (r.length_readPart_le w).trans (Word.mem_upToLength.1 hw).1
  rw [survey, Recognizer.survey_eq]
  calc
    ((Word.upToLength alphabet n).map fun w => (r.readPart w).length).sum ≤
        ((Word.upToLength alphabet n).map fun w => (r.readPart w).length).length • n := by
      apply List.sum_le_card_nsmul
      intro k hk
      obtain ⟨w, hw, rfl⟩ := List.mem_map.1 hk
      exact hword w hw
    _ = (Word.upToLength alphabet n).length * n := by rw [List.length_map, Nat.nsmul_eq_mul]

end Regex
end RegexDerivatives
