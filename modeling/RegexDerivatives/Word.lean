/-!
# Words

A word is a finite sequence of symbols.  Besides the type this module lists the
words over a finite alphabet, shortest first, in the order in which they are
tried against a regex.
-/

namespace RegexDerivatives

universe u

/-- A finite sequence of symbols. -/
abbrev Word (α : Type u) : Type u := List α

namespace Word

variable {α : Type u}

/-- Each word of a list extended on the right by each symbol of the alphabet,
words first and symbols second. -/
def extendEach (alphabet : Word α) (words : List (Word α)) : List (Word α) :=
  words.flatMap fun w => alphabet.map fun a => w ++ [a]

/-- All words of one length over the alphabet, in lexicographic order of the
positions of their symbols in the alphabet. -/
def ofLength (alphabet : Word α) : Nat → List (Word α)
  | 0 => [[]]
  | n + 1 => extendEach alphabet (ofLength alphabet n)

/-- All words of at most the given length over the alphabet, shortest first. -/
def upToLength (alphabet : Word α) : Nat → List (Word α)
  | 0 => ofLength alphabet 0
  | n + 1 => upToLength alphabet n ++ ofLength alphabet (n + 1)

@[simp] theorem ofLength_zero (alphabet : Word α) : ofLength alphabet 0 = [[]] := rfl

theorem ofLength_succ (alphabet : Word α) (n : Nat) :
    ofLength alphabet (n + 1) = extendEach alphabet (ofLength alphabet n) := rfl

theorem mem_extendEach {alphabet : Word α} {words : List (Word α)} {w : Word α} :
    w ∈ extendEach alphabet words ↔ ∃ v ∈ words, ∃ a ∈ alphabet, w = v ++ [a] := by
  simp [extendEach, eq_comm]

/-- The words listed for a length are the words of that length over the
alphabet. -/
theorem mem_ofLength {alphabet : Word α} {n : Nat} {w : Word α} :
    w ∈ ofLength alphabet n ↔ w.length = n ∧ ∀ a ∈ w, a ∈ alphabet := by
  induction n generalizing w with
  | zero =>
      constructor
      · intro h
        simp_all
      · rintro ⟨h, -⟩
        simp_all
  | succ n ih =>
      rw [ofLength_succ, mem_extendEach]
      constructor
      · rintro ⟨v, hv, a, ha, rfl⟩
        obtain ⟨hlength, hmem⟩ := ih.1 hv
        refine ⟨by simp [hlength], fun b hb => ?_⟩
        rcases List.mem_append.1 hb with hb | hb
        · exact hmem b hb
        · rw [List.mem_singleton.1 hb]
          exact ha
      · rintro ⟨hlength, hmem⟩
        have hne : w ≠ [] := by
          rintro rfl
          simp at hlength
        refine ⟨w.dropLast, ih.2 ⟨by simp [hlength], fun a ha => ?_⟩, w.getLast hne, ?_, ?_⟩
        · exact hmem a (List.dropLast_subset w ha)
        · exact hmem _ (List.getLast_mem hne)
        · exact (List.dropLast_concat_getLast hne).symm

/-- The words listed up to a length are the words over the alphabet that are not
longer. -/
theorem mem_upToLength {alphabet : Word α} {n : Nat} {w : Word α} :
    w ∈ upToLength alphabet n ↔ w.length ≤ n ∧ ∀ a ∈ w, a ∈ alphabet := by
  induction n with
  | zero => rw [upToLength, mem_ofLength, Nat.le_zero_eq]
  | succ n ih =>
      rw [upToLength, List.mem_append, ih, mem_ofLength, Nat.le_add_one_iff, or_and_right]

end Word
end RegexDerivatives
