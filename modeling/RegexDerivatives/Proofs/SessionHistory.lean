import Mathlib.Data.List.Forall2
import RegexDerivatives.Recognizer.Session
import RegexDerivatives.Proofs.Recognition

/-!
# What a recognizer in use has read

While a session goes on, one can write down for each of its recognizers the word that
it has read: a symbol read is appended, a restart forgets the word, a scan leaves the
part of its word that it read, and a saved copy keeps the word it was saved with.  The
written words determine the session.  One action on the session and on the words
commute, so this holds after any actions in any order, and everything that can be
asked of a recognizer in use is an answer about its word:

* `hasRead_actAll` — after any actions, for the recognizer in use and every saved copy;
* `hasRead_replies` — for each reply to a list of commands.
-/

namespace RegexDerivatives

universe u

variable {α : Type u}

/-- What can be done with a session of a pattern. -/
inductive Action (α : Type u) : Type u where
  /-- Go on with a new recognizer of the pattern. -/
  | renew : Action α
  /-- Give a command, at some verbosity. -/
  | command (v : Verbosity) (c : Command α) : Action α

namespace Session

variable [BEq α]

/-- The session of a pattern after one action. -/
def act (r : Regex α) (t : Session α) : Action α → Session α
  | .renew => { t with recognizer := .start r }
  | .command v c => (t.reply v c).session

/-- The session of a pattern after actions in turn. -/
def actAll (r : Regex α) (t : Session α) (actions : List (Action α)) : Session α :=
  actions.foldl (act r) t

end Session

/-- The words read by the recognizers of a session: by the one in use, and by the
saved copies, the last one first. -/
structure Histories (α : Type u) : Type u where
  /-- The word read by the recognizer in use. -/
  inUse : Word α
  /-- The words read by the saved copies. -/
  saved : List (Word α)

namespace Histories

/-- Nothing has been read and nothing saved. -/
def start : Histories α where
  inUse := []
  saved := []

variable [BEq α]

/-- The words read after one action. -/
def act (r : Regex α) (h : Histories α) : Action α → Histories α
  | .renew => { h with inUse := [] }
  | .command _ (.read s) => { h with inUse := h.inUse ++ [s] }
  | .command _ .restart => { h with inUse := [] }
  | .command _ (.scan w) => { h with inUse := r.readPart w }
  | .command _ .save => { h with saved := h.inUse :: h.saved }
  | .command _ .restore =>
      match h.saved with
      | [] => h
      | u :: saved => { inUse := u, saved := saved }

/-- The words read after actions in turn. -/
def actAll (r : Regex α) (h : Histories α) (actions : List (Action α)) : Histories α :=
  actions.foldl (act r) h

/-- The session in which each recognizer of a pattern has read its word. -/
def session (r : Regex α) (h : Histories α) : Session α where
  recognizer := (Recognizer.start r).readAll h.inUse
  saved := h.saved.map fun u => (Recognizer.start r).readAll u

theorem session_start (r : Regex α) : (start : Histories α).session r = Session.start r := rfl

/-- An action on the words read is the same action on the session. -/
theorem session_act (r : Regex α) (h : Histories α) (a : Action α) :
    (h.act r a).session r = (h.session r).act r a := by
  have hpattern : ((Recognizer.start r).readAll h.inUse).pattern = r :=
    Recognizer.pattern_readAll (.start r) h.inUse
  cases a with
  | renew => rfl
  | command v c =>
      cases c with
      | read s =>
          have hread : (Recognizer.start r).readAll (h.inUse ++ [s]) =
              ((Recognizer.start r).readAll h.inUse).read s :=
            Recognizer.readAll_append (.start r) h.inUse [s]
          simp only [session, act, Session.act, Session.reply, hread]
      | restart =>
          have hrestart : ((Recognizer.start r).readAll h.inUse).restart = .start r := by
            rw [Recognizer.restart_eq_start, hpattern]
          simp only [session, act, Session.act, Session.reply, hrestart, Recognizer.readAll_nil]
      | scan w =>
          have hscan : (((Recognizer.start r).readAll h.inUse).scan v w).recognizer =
              (Recognizer.start r).readAll (r.readPart w) := by
            rw [Recognizer.recognizer_scan, hpattern]
          simp only [session, act, Session.act, Session.reply, hscan]
      | save => rfl
      | restore =>
          -- Both sides look at the saved copies: with none of them nothing changes.
          cases hsaved : h.saved with
          | nil => simp only [session, act, Session.act, Session.reply, hsaved, List.map_nil]
          | cons u saved =>
              simp only [session, act, Session.act, Session.reply, hsaved, List.map_cons]

/-- Any actions on the words read are the same actions on the session. -/
theorem session_actAll (r : Regex α) (h : Histories α) (actions : List (Action α)) :
    (h.actAll r actions).session r = (h.session r).actAll r actions := by
  induction actions generalizing h with
  | nil => rfl
  | cons a actions ih =>
      calc
        (h.actAll r (a :: actions)).session r = ((h.act r a).actAll r actions).session r := rfl
        _ = ((h.act r a).session r).actAll r actions := ih (h.act r a)
        _ = ((h.session r).act r a).actAll r actions := by rw [session_act]
        _ = (h.session r).actAll r (a :: actions) := rfl

/-- Any actions on a new session are the same actions on no words. -/
theorem session_actAll_start (r : Regex α) (actions : List (Action α)) :
    (start.actAll r actions).session r = (Session.start r).actAll r actions := by
  rw [session_actAll, session_start]

end Histories

/-- All that can be asked of a recognizer of a pattern that has read a word. -/
structure HasRead [BEq α] (r : Regex α) (m : Recognizer α) (h : Word α) : Prop where
  /-- It counts the symbols of the word. -/
  consumed : m.consumed = h.length
  /-- What is left to match is the residual of the unmodified pattern. -/
  current : m.current = r.residualBy h
  /-- What is left to match describes what completes the word. -/
  language : ∀ v, m.current.Describes v ↔ r.Describes (h ++ v)
  /-- It accepts when the pattern describes the word. -/
  accepts : m.accepts = true ↔ r.Describes h
  /-- The answer of a scan is the answer of the pattern. -/
  scan : ∀ (v : Verbosity) (w : Word α), (m.scan v w).accepted = r.accepts w

variable [BEq α]

theorem hasRead_readAll (r : Regex α) (h : Word α) :
    HasRead r ((Recognizer.start r).readAll h) h where
  consumed := by
    rw [Recognizer.consumed_readAll_start]
  current := by
    rw [Recognizer.current_readAll_start]
  language v := by
    rw [Recognizer.current_readAll_start, Regex.describes_residualBy_iff]
  accepts := by
    rw [Recognizer.accepts, Recognizer.current_readAll_start,
      Regex.nullable_residualBy_iff]
  scan v w := by
    rw [Recognizer.accepted_scan_eq_accepts, Recognizer.pattern_readAll,
      Recognizer.pattern_start]

/-- The words written down determine what can be asked of the recognizers of a session. -/
theorem hasRead_session (r : Regex α) (h : Histories α) :
    HasRead r (h.session r).recognizer h.inUse ∧
      List.Forall₂ (HasRead r) (h.session r).saved h.saved := by
  constructor
  · exact hasRead_readAll r h.inUse
  · apply List.forall₂_map_left_iff.2
    apply List.forall₂_same.2
    intro u _
    exact hasRead_readAll r u

/-- After any actions in any order, the recognizer in use and every saved copy have
read the words written down for them. -/
theorem hasRead_actAll (r : Regex α) (actions : List (Action α)) :
    HasRead r ((Session.start r).actAll r actions).recognizer
        (Histories.start.actAll r actions).inUse ∧
      List.Forall₂ (HasRead r) ((Session.start r).actAll r actions).saved
        (Histories.start.actAll r actions).saved := by
  rw [← Histories.session_actAll_start]
  exact hasRead_session r _

/-! ## The replies to commands -/

/-- A command is answered in the session that the commands before it have led to. -/
theorem Session.getElem?_replies (v : Verbosity) (r : Regex α) (t : Session α)
    (commands : List (Command α)) (i : Nat) :
    (t.replies v commands)[i]? =
      commands[i]?.map ((t.actAll r ((commands.take i).map (.command v))).reply v) := by
  induction commands generalizing t i with
  | nil => rfl
  | cons c commands ih =>
      cases i with
      | zero => rfl
      | succ i =>
          rw [replies, List.getElem?_cons_succ, List.getElem?_cons_succ, ih]
          rfl

/-- A command to the session written down leaves the session written down after it, and a
scan is answered as the pattern answers. -/
theorem hasRead_reply (v : Verbosity) (r : Regex α) (h : Histories α) (c : Command α) :
    HasRead r ((h.session r).reply v c).session.recognizer (h.act r (.command v c)).inUse ∧
      List.Forall₂ (HasRead r) ((h.session r).reply v c).session.saved
        (h.act r (.command v c)).saved ∧
      ∀ w, c = .scan w →
        ((h.session r).reply v c).outcome.map Outcome.accepted = some (r.accepts w) := by
  have hsession : ((h.session r).reply v c).session = (h.act r (.command v c)).session r :=
    (Histories.session_act r h (.command v c)).symm
  obtain ⟨hinUse, hsaved⟩ := hasRead_session r (h.act r (.command v c))
  rw [hsession]
  refine ⟨hinUse, hsaved, ?_⟩
  rintro w rfl
  exact congrArg some ((hasRead_readAll r h.inUse).scan v w)

/-- Every command is replied to.  The reply leaves the recognizers that have read the words
written down up to this command, and a scan is answered as the pattern answers. -/
theorem hasRead_replies (v : Verbosity) (r : Regex α) {commands : List (Command α)} {i : Nat}
    {c : Command α} (hc : commands[i]? = some c) :
    ∃ reply, ((Session.start r).replies v commands)[i]? = some reply ∧
      HasRead r reply.session.recognizer
        (Histories.start.actAll r ((commands.take (i + 1)).map (.command v))).inUse ∧
      List.Forall₂ (HasRead r) reply.session.saved
        (Histories.start.actAll r ((commands.take (i + 1)).map (.command v))).saved ∧
      ∀ w, c = .scan w → reply.outcome.map Outcome.accepted = some (r.accepts w) := by
  have hact : Histories.start.actAll r ((commands.take (i + 1)).map (.command v)) =
      (Histories.start.actAll r ((commands.take i).map (.command v))).act r (.command v c) := by
    rw [List.take_add_one, hc, Option.toList_some, List.map_append, Histories.actAll,
      List.foldl_append]
    rfl
  refine ⟨((Histories.start.actAll r ((commands.take i).map (.command v))).session r).reply v c,
    ?_, ?_⟩
  · rw [Session.getElem?_replies v r, hc, ← Histories.session_actAll_start]
    rfl
  · rw [hact]
    exact hasRead_reply v r _ c

end RegexDerivatives
