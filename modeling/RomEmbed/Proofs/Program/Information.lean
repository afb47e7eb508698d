import Mathlib.Tactic.Common
import RomEmbed.Proofs.CommandLine.Flags
import RomEmbed.Proofs.Program.Endings

/-!
What a run does that is asked for help or the version: it prints that, and nothing else happens.
The flag is obeyed even where the arguments before it would do by themselves.
-/

namespace RomEmbed.Program

open CommandLine (Flag Report Request Sound Asks Informs)
open Files (Tree)

variable {pre : List Bytes} {flag : Flag} {q : Request}

lemma message_shown_inj {other : Flag}
    (h : (Report.shown flag).message = (Report.shown other).message) : flag = other := by
  have hne : (Report.shown .help).message ≠ (Report.shown .version).message := by decide
  cases flag <;> cases other
  · rfl
  · exact absurd h hne
  · exact absurd h.symm hne
  · rfl

/-- Only a run that is asked for it prints help or the version. -/
lemma run_eq_shown_iff (engine : Log.Engine) (t : Tree) (args : List Bytes)
    (logVariable : Option Text) (flag : Flag) :
    run engine t args logVariable = (t, ⟨0, (Report.shown flag).message, []⟩) ↔
      CommandLine.parse args = .error (.shown flag) := by
  constructor
  · intro h
    rcases hp : CommandLine.parse args with report | q
    · rw [run_of_report hp] at h
      rcases isError_or_shown report with herror | ⟨other, rfl⟩
      · rw [ofReport_of_isError herror] at h
        simp at h
      · rw [ofReport_shown] at h
        rw [message_shown_inj (congrArg (·.2.output) h)]
    · rw [run_of_request hp] at h
      have houtput := congrArg (·.2.output) h
      rcases hr : (embed t q.rom q.name).2.result with e | p
      · exact absurd (houtput.symm.trans (ofOutcome_of_error hr).2.1) (message_shown_ne_nil flag)
      · exact absurd (houtput.symm.trans (ofOutcome_of_ok hr).2) (message_shown_ne_nil flag)
  · intro h
    rw [run_of_report h, ofReport_shown]

/-- A complete command line without an escape is valid as far as it goes. -/
lemma sound_of_parse (h : CommandLine.parse pre = .ok q) (hescape : CommandLine.escape ∉ pre) :
    Sound pre := by
  obtain ⟨hrom, ⟨rfl, hlooks⟩ | ⟨before, after, rfl, -, -⟩⟩ := CommandLine.parse_eq_ok_iff.mp h
  · exact ⟨hlooks, by simp, by simpa using hrom, by simp⟩
  · exact absurd (by simp) hescape

/-- **Help and the version are reached exactly when everything before them is valid**, and then
they are all that a run prints, to the output, and the tree stays as it is. -/
theorem run_informs_iff (flag : Flag) (args : List Bytes) :
    ((∃ r, CommandLine.parse args = .error r ∧ r.kind = (Report.shown flag).kind) ↔
      Informs flag args) ∧
    (∀ engine t logVariable,
        run engine t args logVariable = (t, ⟨0, (Report.shown flag).message, []⟩) ↔
      Informs flag args) ∧
    (∀ pre f post q, args = pre ++ [f] ++ post → CommandLine.parse pre = .ok q →
      CommandLine.escape ∉ pre → Asks flag f → ∀ engine t logVariable,
        run engine t args logVariable = (t, ⟨0, (Report.shown flag).message, []⟩)) := by
  refine ⟨?_, fun engine t logVariable => ?_, ?_⟩
  · simp only [CommandLine.kind_eq_shown_iff, exists_eq_right]
    exact CommandLine.parse_eq_shown_iff
  · exact (run_eq_shown_iff engine t args logVariable flag).trans CommandLine.parse_eq_shown_iff
  · rintro pre f post q rfl hp hescape hasks engine t logVariable
    rw [run_eq_shown_iff, CommandLine.parse_eq_shown_iff]
    exact ⟨pre, f, post, rfl, sound_of_parse hp hescape, hasks⟩

/-- A flag after a complete command line, with a cluster that goes on after its letter. -/
theorem run_informs_late :
    CommandLine.parse [Utf8.encode "R".toList, Utf8.encode "S".toList] =
      .ok ⟨Utf8.encode "R".toList, "S".toList⟩ ∧
    Asks .version (Utf8.encode "-Vhf".toList) ∧
    run .plain Tree.initial
      [Utf8.encode "R".toList, Utf8.encode "S".toList, Utf8.encode "-Vhf".toList, [0xFF]]
      (some "trace".toList) = (Tree.initial, ⟨0, Report.versionText, []⟩) := by
  have hp : CommandLine.parse [Utf8.encode "R".toList, Utf8.encode "S".toList] =
      .ok ⟨Utf8.encode "R".toList, "S".toList⟩ := by decide
  have hasks : Asks .version (Utf8.encode "-Vhf".toList) := Or.inr (by decide)
  exact ⟨hp, hasks,
    (run_informs_iff .version _).2.2 [_, _] _ [_] _ rfl hp (by decide) hasks _ _ _⟩

end RomEmbed.Program
