import RegexDerivatives.Regex.NormalForm

/-!
# Recognizers

A recognizer reads a word one symbol at a time.  It holds the residual of its
pattern by the symbols read so far and counts them; the word read so far is
accepted when that residual describes the empty word.
-/

namespace RegexDerivatives

universe u

/-- The state of reading a word against a pattern. -/
structure Recognizer (α : Type u) : Type u where
  /-- The regex that the whole word is compared with. -/
  pattern : Regex α
  /-- What may still follow the symbols read so far. -/
  current : Regex α
  /-- How many symbols have been read since the start. -/
  consumed : Nat

namespace Recognizer

variable {α : Type u}

/-- The recognizer of a pattern before the first symbol.  The pattern itself is
not simplified. -/
def start (r : Regex α) : Recognizer α where
  pattern := r
  current := r
  consumed := 0

/-- The recognizer with all symbols read so far forgotten. -/
def restart (m : Recognizer α) : Recognizer α :=
  start m.pattern

/-- The recognizer after one more symbol. -/
def read [BEq α] (m : Recognizer α) (s : α) : Recognizer α where
  pattern := m.pattern
  current := m.current.residual s
  consumed := m.consumed + 1

/-- The recognizer after the symbols of a word, without looking at what is
left to match. -/
def readAll [BEq α] (m : Recognizer α) (w : Word α) : Recognizer α :=
  w.foldl read m

/-- Whether the symbols read so far form a word of the pattern. -/
def accepts (m : Recognizer α) : Bool :=
  m.current.nullable

/-- Whether nothing is left to match, so that no further symbols can lead to
acceptance. -/
def isDead (m : Recognizer α) : Bool :=
  m.current.isEmpty

@[simp] theorem pattern_start (r : Regex α) : (start r).pattern = r := rfl
@[simp] theorem current_start (r : Regex α) : (start r).current = r := rfl
@[simp] theorem consumed_start (r : Regex α) : (start r).consumed = 0 := rfl

theorem restart_eq_start (m : Recognizer α) : m.restart = start m.pattern := rfl

section Comparison

variable [BEq α]

@[simp] theorem pattern_read (m : Recognizer α) (s : α) :
    (m.read s).pattern = m.pattern := rfl

@[simp] theorem current_read (m : Recognizer α) (s : α) :
    (m.read s).current = m.current.residual s := rfl

@[simp] theorem consumed_read (m : Recognizer α) (s : α) :
    (m.read s).consumed = m.consumed + 1 := rfl

@[simp] theorem readAll_nil (m : Recognizer α) : m.readAll [] = m := rfl

@[simp] theorem readAll_cons (m : Recognizer α) (s : α) (w : Word α) :
    m.readAll (s :: w) = (m.read s).readAll w := rfl

theorem readAll_append (m : Recognizer α) (v w : Word α) :
    m.readAll (v ++ w) = (m.readAll v).readAll w :=
  List.foldl_append

@[simp] theorem pattern_readAll (m : Recognizer α) (w : Word α) :
    (m.readAll w).pattern = m.pattern := by
  induction w generalizing m with
  | nil => rfl
  | cons s w ih => simp [ih]

/-- Reading a word leaves the residual by that word. -/
@[simp] theorem current_readAll (m : Recognizer α) (w : Word α) :
    (m.readAll w).current = m.current.residualBy w := by
  induction w generalizing m with
  | nil => rfl
  | cons s w ih => simp [ih]

@[simp] theorem consumed_readAll (m : Recognizer α) (w : Word α) :
    (m.readAll w).consumed = m.consumed + w.length := by
  induction w generalizing m with
  | nil => rfl
  | cons s w ih =>
      simp [ih]
      omega

/-- A new recognizer that reads a word keeps the residual of its pattern by that word. -/
theorem current_readAll_start (r : Regex α) (w : Word α) :
    ((start r).readAll w).current = r.residualBy w :=
  current_readAll (start r) w

theorem consumed_readAll_start (r : Regex α) (w : Word α) :
    ((start r).readAll w).consumed = w.length := by
  rw [consumed_readAll, consumed_start, Nat.zero_add]

end Comparison

theorem isDead_iff {m : Recognizer α} : m.isDead = true ↔ m.current = .empty :=
  Regex.isEmpty_iff

end Recognizer
end RegexDerivatives
