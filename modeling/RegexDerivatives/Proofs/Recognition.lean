import RegexDerivatives.Recognizer.Scan
import RegexDerivatives.Proofs.ResidualLanguage

/-!
# Recognition of words

A scan gives up as soon as the residual is `empty`.  Since `empty` has no other
residual than itself, giving up changes neither the answer nor the residual that is
left: a scan answers as if it had read the whole word.  With the language of
residuals this makes every scan a decision procedure for the described words.
-/

namespace RegexDerivatives

universe u

variable {α : Type u} [BEq α]

namespace Regex

/-- The part of a word that a scan reads: the symbols up to the first one whose
residual is `empty`, that one included. -/
def readPart : Regex α → Word α → Word α
  | _, [] => []
  | r, s :: w => if r.isEmpty then [] else s :: readPart (r.residual s) w

@[simp] theorem readPart_nil (r : Regex α) : r.readPart [] = [] := rfl

theorem readPart_cons_of_empty {r : Regex α} (h : r.isEmpty = true) (s : α) (w : Word α) :
    r.readPart (s :: w) = [] := by
  simp [readPart, h]

theorem readPart_cons_of_not_empty {r : Regex α} (h : r.isEmpty = false) (s : α) (w : Word α) :
    r.readPart (s :: w) = s :: (r.residual s).readPart w := by
  simp [readPart, h]

/-- A scan reads a word from its beginning. -/
theorem readPart_isPrefix (r : Regex α) (w : Word α) : r.readPart w <+: w := by
  induction w generalizing r with
  | nil => exact List.prefix_rfl
  | cons s w ih =>
      cases h : r.isEmpty with
      | true =>
          rw [readPart_cons_of_empty h]
          exact List.nil_prefix
      | false =>
          rw [readPart_cons_of_not_empty h]
          exact (List.prefix_cons_inj s).2 (ih (r.residual s))

/-- The symbols that a scan does not read change no residual. -/
theorem residualBy_readPart (r : Regex α) (w : Word α) :
    r.residualBy (r.readPart w) = r.residualBy w := by
  induction w generalizing r with
  | nil => rfl
  | cons s w ih =>
      cases h : r.isEmpty with
      | true =>
          rw [readPart_cons_of_empty h, isEmpty_iff.1 h, residualBy_empty, residualBy_empty]
      | false =>
          rw [readPart_cons_of_not_empty h, residualBy_cons, residualBy_cons, ih]

/-- Where symbols are left unread, nothing is left to match. -/
theorem residualBy_eq_empty_of_readPart_ne {r : Regex α} {w : Word α} (h : r.readPart w ≠ w) :
    r.residualBy (r.readPart w) = empty := by
  induction w generalizing r with
  | nil => exact absurd rfl h
  | cons s w ih =>
      cases he : r.isEmpty with
      | true =>
          rw [readPart_cons_of_empty he]
          exact isEmpty_iff.1 he
      | false =>
          rw [readPart_cons_of_not_empty he] at h ⊢
          exact ih fun hw => h (congrArg (s :: ·) hw)

/-- As long as symbols of the read part follow, something is left to match. -/
theorem residualBy_ne_empty_of_readPart_eq {r : Regex α} {w u v : Word α} {s : α}
    (h : r.readPart w = u ++ s :: v) : r.residualBy u ≠ empty := by
  -- Induction on the symbols before `s`, none of which has ended the scan.
  induction u generalizing r w with
  | nil =>
      rintro rfl
      cases w with
      | nil => simp at h
      | cons t w => simp [readPart, isEmpty] at h
  | cons t u ih =>
      cases w with
      | nil => simp at h
      | cons t' w =>
          cases he : r.isEmpty with
          | true => simp [readPart_cons_of_empty he] at h
          | false =>
              rw [readPart_cons_of_not_empty he, List.cons_append] at h
              obtain ⟨rfl, htail⟩ := List.cons.inj h
              exact ih htail

end Regex

namespace Recognizer

/-- A scan ends with the recognizer that has read its part of the word. -/
theorem recognizer_scanOn (v : Verbosity) (m : Recognizer α) (w : Word α) :
    (m.scanOn v w).recognizer = m.readAll (m.current.readPart w) := by
  induction w generalizing m with
  | nil => rfl
  | cons s w ih =>
      cases h : m.isDead with
      | true =>
          rw [scanOn_cons_of_isDead v h, Regex.readPart_cons_of_empty h, readAll_nil]
      | false =>
          rw [scanOn_cons_of_not_isDead v h, Regex.readPart_cons_of_not_empty h, readAll_cons]
          exact ih (m.read s)

/-- A scan answers as if it had read the whole word. -/
theorem accepted_scanOn (v : Verbosity) (m : Recognizer α) (w : Word α) :
    (m.scanOn v w).accepted = (m.current.residualBy w).nullable := by
  induction w generalizing m with
  | nil => rfl
  | cons s w ih =>
      cases h : m.isDead with
      | true =>
          -- The scan says no, and so does `empty`, which is left after any word.
          rw [scanOn_cons_of_isDead v h, isDead_iff.1 h, Regex.residualBy_empty]
          rfl
      | false =>
          rw [scanOn_cons_of_not_isDead v h]
          exact ih (m.read s)

theorem recognizer_scan (v : Verbosity) (m : Recognizer α) (w : Word α) :
    (m.scan v w).recognizer = (start m.pattern).readAll (m.pattern.readPart w) :=
  recognizer_scanOn v m.restart w

/-- A scan goes on with the same pattern. -/
theorem pattern_scan (v : Verbosity) (m : Recognizer α) (w : Word α) :
    (m.scan v w).recognizer.pattern = m.pattern := by
  rw [recognizer_scan, pattern_readAll, pattern_start]

theorem accepted_scan (v : Verbosity) (m : Recognizer α) (w : Word α) :
    (m.scan v w).accepted = (m.pattern.residualBy w).nullable :=
  accepted_scanOn v m.restart w

/-- The answer of a scan depends on the pattern and the word alone. -/
theorem accepted_scan_eq_accepts (v : Verbosity) (m : Recognizer α) (w : Word α) :
    (m.scan v w).accepted = m.pattern.accepts w := by
  rw [Regex.accepts, Regex.scan, accepted_scan, accepted_scan, pattern_start]

end Recognizer

namespace Regex

theorem accepts_eq_nullable_residualBy (r : Regex α) (w : Word α) :
    r.accepts w = (r.residualBy w).nullable :=
  Recognizer.accepted_scan .silent (.start r) w

theorem accepts_eq_true_iff {r : Regex α} {w : Word α} : r.accepts w = true ↔ r.Describes w := by
  rw [accepts_eq_nullable_residualBy, nullable_residualBy_iff]

/-- Scanning decides which words are described. -/
instance (r : Regex α) (w : Word α) : Decidable (r.Describes w) :=
  decidable_of_iff (r.accepts w = true) accepts_eq_true_iff

/-- A scan answers the same at every verbosity. -/
theorem accepted_scan_eq_accepts (v : Verbosity) (r : Regex α) (w : Word α) :
    (r.scan v w).accepted = r.accepts w :=
  Recognizer.accepted_scan_eq_accepts v (.start r) w

/-- A scan of a text answers the same at every verbosity. -/
theorem accepted_scanText_eq_acceptsText (v : Verbosity) (r : Regex Char) (text : String) :
    (r.scanText v text).accepted = r.acceptsText text :=
  accepted_scan_eq_accepts v r text.toList

/-- A regex over any symbols accepts a word exactly when it describes it, and a
regex over characters accepts a text exactly when it describes its characters. -/
theorem accepts_iff_describes :
    (∀ (r : Regex α) (w : Word α), r.accepts w = true ↔ r.Describes w) ∧
      ∀ (r : Regex Char) (text : String),
        r.acceptsText text = true ↔ r.Describes text.toList := by
  constructor
  · intro r w
    exact accepts_eq_true_iff
  · intro r text
    rw [acceptsText, accepts_eq_true_iff]

end Regex
end RegexDerivatives
