import Mathlib.Order.Bounds.Basic
import RegexDerivatives.Proofs.Recognition

/-!
# Where a scan stops and what it reports

A scan is compared with reading the whole word without looking at what is left to match.
The symbols that a scan reads are a beginning of the word, and its length is the least
number of symbols after which the residual is `empty`; all else follows from it:

* `isLeast_length_readPart` — how many symbols are read;
* `pulled_scanOn` — one more is taken from the word, if there is one;
* `events_scanOn` — the symbols read are reported one by one, then the stop.
-/

namespace RegexDerivatives

universe u

variable {α : Type u}

/-- What is kept of an event: its level and its wording. -/
def Event.record [ToString α] (e : Event α) : Level × String :=
  (e.level, e.message)

variable [BEq α]

namespace Regex

/-- The events of a scan that reads `n` symbols of a word: each of them with its number
and with what may follow it, and then the next symbol of the word, if there is one, as
the symbol before which the scan stops. -/
def scanEvents (r : Regex α) (w : Word α) (n : Nat) : List (Event α) :=
  ((w.take n).zipIdx 1).map (fun (s, i) => .read i s (r.residualBy (w.take i))) ++
    (w[n]?.map (.stop n)).toList

/-- The records of a scan that reads `n` symbols of a word. -/
def scanRecords [ToString α] (r : Regex α) (w : Word α) (n : Nat) : List (Level × String) :=
  ((w.take n).zipIdx 1).map (fun (s, i) =>
      (.trace, "derivation " ++ toString i ++ " by " ++ toString s ++ ": " ++
        toString (r.residualBy (w.take i)) ++ " (" ++
        toString (r.residualBy (w.take i)).size ++ " nodes)")) ++
    (w[n]?.map fun s =>
      (.debug, "no match possible after " ++ toString n ++ " symbols, stopping before " ++
        toString s)).toList

theorem map_record_scanEvents [ToString α] (r : Regex α) (w : Word α) (n : Nat) :
    (r.scanEvents w n).map Event.record = r.scanRecords w n := by
  rw [scanEvents, scanRecords, List.map_append, List.map_map]
  cases w[n]? with
  | none => rfl
  | some s => rfl

/-! ## How many symbols are read -/

theorem readPart_eq_take (r : Regex α) (w : Word α) :
    r.readPart w = w.take (r.readPart w).length :=
  List.prefix_iff_eq_take.1 (r.readPart_isPrefix w)

theorem length_readPart_le (r : Regex α) (w : Word α) : (r.readPart w).length ≤ w.length :=
  (r.readPart_isPrefix w).length_le

/-- Before a scan has read all that it reads, something is left to match. -/
theorem residualBy_take_ne_empty {r : Regex α} {w : Word α} {k : Nat}
    (h : k < (r.readPart w).length) : r.residualBy (w.take k) ≠ empty := by
  have htake : (r.readPart w).take k = w.take k := by
    rw [readPart_eq_take, List.take_take, Nat.min_eq_left (Nat.le_of_lt h)]
  have hsplit : r.readPart w = w.take k ++ (r.readPart w)[k] :: (r.readPart w).drop (k + 1) := by
    rw [← htake, ← List.drop_eq_getElem_cons h, List.take_append_drop]
  exact residualBy_ne_empty_of_readPart_eq hsplit

/-- A scan reads up to the first place where nothing is left to match, or to the end. -/
theorem isLeast_length_readPart (r : Regex α) (w : Word α) :
    IsLeast {k | k = w.length ∨ k ≤ w.length ∧ r.residualBy (w.take k) = empty}
      (r.readPart w).length := by
  constructor
  · by_cases h : r.readPart w = w
    · left
      rw [h]
    · right
      refine ⟨length_readPart_le r w, ?_⟩
      rw [← readPart_eq_take]
      exact residualBy_eq_empty_of_readPart_ne h
  · rintro k (rfl | ⟨-, hempty⟩)
    · exact length_readPart_le r w
    · by_contra hlt
      exact residualBy_take_ne_empty (Nat.lt_of_not_le hlt) hempty

end Regex

namespace Recognizer

theorem consumed_scan (v : Verbosity) (m : Recognizer α) (w : Word α) :
    (m.scan v w).recognizer.consumed = (m.pattern.readPart w).length := by
  rw [recognizer_scan, consumed_readAll_start]

/-! ## What is taken from the word and what is reported -/

/-- A scan takes the symbols that it reads and, if one follows, the symbol before which
it stops. -/
theorem pulled_scanOn (v : Verbosity) (m : Recognizer α) (w : Word α) :
    (m.scanOn v w).pulled = min ((m.current.readPart w).length + 1) w.length := by
  induction w generalizing m with
  | nil => rfl
  | cons s w ih =>
      cases h : m.isDead with
      | true =>
          rw [scanOn_cons_of_isDead v h, Regex.readPart_cons_of_empty h, List.length_nil,
            List.length_cons]
          show 1 = min (0 + 1) (w.length + 1)
          omega
      | false =>
          rw [scanOn_cons_of_not_isDead v h, Regex.readPart_cons_of_not_empty h, List.length_cons,
            List.length_cons]
          have hrest := ih (m.read s)
          rw [current_read] at hrest
          show ((m.read s).scanOn v w).pulled + 1 = _
          omega

/-- A scan does not look behind the symbols that it takes. -/
theorem scanOn_take {v : Verbosity} {m : Recognizer α} {w : Word α} {n : Nat}
    (h : (m.scanOn v w).pulled ≤ n) : m.scanOn v (w.take n) = m.scanOn v w := by
  induction w generalizing m n with
  | nil => rw [List.take_nil]
  | cons s w ih =>
      cases hdead : m.isDead with
      | true =>
          rw [scanOn_cons_of_isDead v hdead] at h ⊢
          obtain ⟨n, rfl⟩ := Nat.exists_eq_succ_of_ne_zero (Nat.ne_zero_of_lt h)
          rw [List.take_succ_cons, scanOn_cons_of_isDead v hdead]
      | false =>
          rw [scanOn_cons_of_not_isDead v hdead] at h ⊢
          obtain ⟨n, rfl⟩ := Nat.exists_eq_succ_of_ne_zero (Nat.ne_zero_of_lt h)
          rw [List.take_succ_cons, scanOn_cons_of_not_isDead v hdead,
            ih (Nat.le_of_succ_le_succ h)]

/-- The events of reading a word without looking at what is left to match. -/
def readEvents (m : Recognizer α) : Word α → List (Event α)
  | [] => []
  | s :: w => (m.read s).readEvent s :: (m.read s).readEvents w

/-- The symbols read are numbered on from those that the recognizer has read before. -/
theorem readEvents_eq_map (m : Recognizer α) (w : Word α) :
    m.readEvents w = (w.zipIdx (m.consumed + 1)).map fun (s, i) =>
      .read i s (m.current.residualBy (w.take (i - m.consumed))) := by
  induction w generalizing m with
  | nil => rfl
  | cons s w ih =>
      have hhead : (s :: w).take (m.consumed + 1 - m.consumed) = [s] := by
        rw [Nat.add_sub_cancel_left]
        rfl
      rw [readEvents, ih, List.zipIdx_cons, List.map_cons]
      congr 1
      · show _ = Event.read (m.consumed + 1) s
          (m.current.residualBy ((s :: w).take (m.consumed + 1 - m.consumed)))
        rw [hhead]
        rfl
      · apply List.map_congr_left
        rintro ⟨t, i⟩ hmem
        have hi : m.consumed + 1 + 1 ≤ i := List.le_snd_of_mem_zipIdx hmem
        have htake : i - m.consumed = i - (m.consumed + 1) + 1 := by omega
        show Event.read i t ((m.current.residual s).residualBy (w.take (i - (m.consumed + 1)))) =
          .read i t (m.current.residualBy ((s :: w).take (i - m.consumed)))
        rw [htake, List.take_succ_cons, Regex.residualBy_cons]

/-- A scan keeps the events of the symbols that it reads and of the symbol before which it
stops. -/
theorem events_scanOn (v : Verbosity) (m : Recognizer α) (w : Word α) :
    (m.scanOn v w).events =
      (m.readEvents (m.current.readPart w) ++
        (w[(m.current.readPart w).length]?.map
          (m.readAll (m.current.readPart w)).stopEvent).toList).filter
        fun e => v.shows e.level := by
  induction w generalizing m with
  | nil => rfl
  | cons s w ih =>
      cases h : m.isDead with
      | true =>
          rw [scanOn_cons_of_isDead v h, Regex.readPart_cons_of_empty h, Verbosity.keep_eq_filter]
          rfl
      | false =>
          have hrest := ih (m.read s)
          rw [current_read] at hrest
          rw [scanOn_cons_of_not_isDead v h, Regex.readPart_cons_of_not_empty h,
            List.length_cons, List.getElem?_cons_succ, readEvents, readAll_cons, List.cons_append,
            ← List.singleton_append, List.filter_append, ← hrest, Verbosity.keep_eq_filter]

theorem events_scan (v : Verbosity) (m : Recognizer α) (w : Word α) :
    (m.scan v w).events =
      (m.pattern.scanEvents w (m.pattern.readPart w).length).filter
        fun e => v.shows e.level := by
  have hread : (start m.pattern).readEvents (m.pattern.readPart w) =
      ((w.take (m.pattern.readPart w).length).zipIdx 1).map fun (s, i) =>
        .read i s (m.pattern.residualBy (w.take i)) := by
    rw [readEvents_eq_map, consumed_start, current_start, ← Regex.readPart_eq_take]
    apply List.map_congr_left
    rintro ⟨s, i⟩ hmem
    have hi : i < 1 + (m.pattern.readPart w).length := List.snd_lt_add_of_mem_zipIdx hmem
    have htake : (m.pattern.readPart w).take i = w.take i := by
      rw [Regex.readPart_eq_take, List.take_take, Nat.min_eq_left (by omega)]
    show Event.read i s (m.pattern.residualBy ((m.pattern.readPart w).take i)) = _
    rw [htake]
  have hstop : ((start m.pattern).readAll (m.pattern.readPart w)).stopEvent =
      .stop (m.pattern.readPart w).length := by
    funext s
    rw [stopEvent, consumed_readAll_start]
  rw [Regex.scanEvents, ← hread, ← hstop]
  exact events_scanOn v m.restart w

/-- At the finest verbosity a scan keeps all its events. -/
theorem events_scan_trace (m : Recognizer α) (w : Word α) :
    (m.scan .trace w).events = m.pattern.scanEvents w (m.pattern.readPart w).length := by
  rw [events_scan]
  apply List.filter_eq_self.2
  intro e _
  exact Verbosity.shows_trace e.level

/-! ## A scan beside reading the whole word -/

/-- A scan gives the answer of reading the whole word and leaves the same residual.  It
reads up to the first place where nothing is left to match, takes one more symbol if there
is one, and reports each symbol that it reads and the symbol before which it stops.  The
verbosity decides which of these reports are kept, and the finest one keeps them all. -/
theorem scan_eq_readAll [ToString α] (v : Verbosity) (m : Recognizer α) (w : Word α) :
    ∃ d, IsLeast {k | k = w.length ∨ k ≤ w.length ∧ m.pattern.residualBy (w.take k) = .empty} d ∧
      (m.scan v w).accepted = (m.restart.readAll w).accepts ∧
      (m.scan v w).recognizer.current = (m.restart.readAll w).current ∧
      (m.scan v w).recognizer = m.restart.readAll (w.take d) ∧
      (m.scan v w).recognizer.consumed = d ∧
      (m.scan v w).pulled = min (d + 1) w.length ∧
      (m.scan v w).events =
        (m.pattern.scanEvents w d).filter (fun e => v.shows e.level) ∧
      (m.scan v w).events.map Event.record =
        (m.pattern.scanRecords w d).filter (fun t => v.shows t.1) ∧
      (m.scan .trace w).events = m.pattern.scanEvents w d ∧
      (m.scan .trace w).events.map Event.record = m.pattern.scanRecords w d := by
  have hrecognizer := recognizer_scan v m w
  refine ⟨(m.pattern.readPart w).length, m.pattern.isLeast_length_readPart w, ?_, ?_, ?_,
    consumed_scan v m w, pulled_scanOn v m.restart w, events_scan v m w, ?_,
    events_scan_trace m w, ?_⟩
  · rw [accepted_scan, accepts, current_readAll]
    rfl
  · rw [hrecognizer, current_readAll, current_readAll, current_start, Regex.residualBy_readPart]
    rfl
  · rw [hrecognizer, ← Regex.readPart_eq_take]
    rfl
  · rw [events_scan, ← Regex.map_record_scanEvents, List.filter_map]
    rfl
  · rw [events_scan_trace, Regex.map_record_scanEvents]

example : (((Regex.symbol 'a').scan .trace ['b']).events.map Event.level,
    ((Regex.symbol 'a').scan .trace ['b', 'a']).events.map Event.level) =
      ([.trace], [.trace, .debug]) := by decide

end Recognizer
end RegexDerivatives
