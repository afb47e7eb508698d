import Mathlib.Tactic.Common
import RomEmbed.Program
import RomEmbed.Proofs.Embedding.Outcome
import RomEmbed.Proofs.Text.Stripping

/-!
How a run of the program ends: with help or the version, with a report of what is wrong
with the arguments, with a class, or with a failure to make one. Arguments are judged before
logging is set up and before any file is touched, so the report stands alone on its stream
and leaves the tree as it was.
-/

namespace RomEmbed

open Files (Tree)

/-! ### Messages -/

namespace CommandLine.Report

/-- The text of an argument that the message tells. -/
def quoted : Report → Text
  | flagValue _ value _ => Utf8.lossy value
  | unknownLong name => Utf8.lossy (longForm name)
  | unknownShort cluster => '-' :: cluster
  | surplus argument => Utf8.lossy argument
  | _ => []

/-- A message depends on how its argument is told, and on that alone. -/
lemma messageWith_congr {told told' : Text → Text} {r : Report}
    (h : told r.quoted = told' r.quoted) : r.messageWith told = r.messageWith told' := by
  cases r with
  | shown flag => cases flag <;> rfl
  | flagValue | unknownLong | unknownShort | surplus =>
    simp only [quoted] at h
    unfold messageWith
    dsimp only
    rw [h]
  | emptyRom | nameNotUtf8 | missing => rfl

/-- The message is printed as it is, unless it tells of an argument with a blank after an
escape character. -/
theorem printed_eq_message {r : Report} (h : ¬Terminal.BlankAfterEscape r.quoted) :
    r.printed = r.message :=
  messageWith_congr (Terminal.plain_eq_streamed h).symm

end CommandLine.Report

namespace Program

open CommandLine (Flag Report Request)

/-! ### The two sides of a run -/

variable {engine : Log.Engine} {t : Tree} {args : List Bytes} {logVariable : Option Text}

lemma run_of_report {report : Report} (h : CommandLine.parse args = .error report) :
    run engine t args logVariable = (t, ofReport report) := by
  simp only [run, h]

lemma run_of_request {q : Request} (h : CommandLine.parse args = .ok q) :
    run engine t args logVariable =
      ((embed t q.rom q.name).1,
        ofOutcome (.ofVariable engine logVariable) (embed t q.rom q.name).2) := by
  simp only [run, h]

lemma ofReport_shown (flag : Flag) :
    ofReport (.shown flag) = ⟨0, (Report.shown flag).message, []⟩ := by
  cases flag <;> rfl

lemma message_shown_ne_nil (flag : Flag) : (Report.shown flag).message ≠ [] := by
  cases flag <;> decide

lemma ofReport_of_isError {report : Report} (h : report.isError = true) :
    ofReport report = ⟨2, [], report.printed⟩ := by
  simp [ofReport, Report.exitCode, h]

lemma isError_or_shown (report : Report) :
    report.isError = true ∨ ∃ flag, report = .shown flag := by
  cases report <;> simp [Report.isError]

/-- The exit code tells whether there was a failure, and nothing is printed to the output. -/
lemma ofOutcome_of_ok {setting : Log.Setting} {o : Embedding.Outcome} {p : Bytes}
    (h : o.result = .ok p) :
    (ofOutcome setting o).exitCode = 0 ∧ (ofOutcome setting o).output = [] := by
  simp [ofOutcome, h]

lemma ofOutcome_of_error {setting : Log.Setting} {o : Embedding.Outcome} {e : EmbedError}
    (h : o.result = .error e) :
    (ofOutcome setting o).exitCode = 1 ∧ (ofOutcome setting o).output = [] ∧
      failureLine e <:+ (ofOutcome setting o).errors := by
  simp only [ofOutcome, h]
  exact ⟨trivial, trivial, List.suffix_append _ _⟩

/-! ### The four ways to end -/

inductive Ending where
  /-- Help or the version was asked for. -/
  | informed (flag : Flag)
  /-- The arguments were not accepted. -/
  | rejected (report : Report)
  | embedded (request : Request)
  | failed (request : Request) (error : EmbedError)

/-- What brings an ending about. -/
def Cause (t : Tree) (args : List Bytes) : Ending → Prop
  | .informed flag => CommandLine.parse args = .error (.shown flag)
  | .rejected report => CommandLine.parse args = .error report ∧ report.isError = true
  | .embedded q =>
    CommandLine.parse args = .ok q ∧ ∃ p, (embed t q.rom q.name).2.result = .ok p
  | .failed q e => CommandLine.parse args = .ok q ∧ (embed t q.rom q.name).2.result = .error e

/-- What an ending leaves behind, in the tree and on the streams. -/
def Effect (t : Tree) (u : Tree) (printed : Printed) : Ending → Prop
  | .informed flag => u = t ∧ printed = ⟨0, (Report.shown flag).message, []⟩
  | .rejected report =>
    u = t ∧ printed = ⟨2, [], report.printed⟩ ∧
      (¬Terminal.BlankAfterEscape report.quoted → report.printed = report.message)
  | .embedded q =>
    u = (embed t q.rom q.name).1 ∧ printed.exitCode = 0 ∧ printed.output = []
  | .failed _ e =>
    u = t ∧ printed.exitCode = 1 ∧ printed.output = [] ∧
      "Error: ".toList ++ e.message ++ ['\n'] <:+ printed.errors

lemma exists_cause_effect (engine : Log.Engine) (t : Tree) (args : List Bytes)
    (logVariable : Option Text) :
    ∃ ending, Cause t args ending ∧
      Effect t (run engine t args logVariable).1 (run engine t args logVariable).2 ending := by
  rcases hp : CommandLine.parse args with report | q
  · rw [run_of_report hp]
    rcases isError_or_shown report with herror | ⟨flag, rfl⟩
    · rw [ofReport_of_isError herror]
      exact ⟨.rejected report, ⟨hp, herror⟩, rfl, rfl, Report.printed_eq_message⟩
    · rw [ofReport_shown]
      exact ⟨.informed flag, hp, rfl, rfl⟩
  · rw [run_of_request hp]
    rcases hr : (embed t q.rom q.name).2.result with e | p
    · exact ⟨.failed q e, ⟨hp, hr⟩, Embedding.tree_of_error hr, ofOutcome_of_error hr⟩
    · exact ⟨.embedded q, ⟨hp, p, hr⟩, rfl, ofOutcome_of_ok hr⟩

/-- The arguments and the outcome tell the endings apart. -/
lemma Cause.unique {a b : Ending} (ha : Cause t args a) (hb : Cause t args b) : a = b := by
  have hshown : ∀ flag, (Report.shown flag).isError ≠ true := by simp [Report.isError]
  cases a with
  | informed flag => cases b <;> grind [Cause]
  | rejected report => cases b <;> grind [Cause]
  | embedded q => cases b <;> grind [Cause]
  | failed q e => cases b <;> grind [Cause]

/-- **How a run ends is exactly one of four things**, each with its exit code, its stream and
its effect on the tree. A run that fails leaves the tree as it was, and a run that succeeds
prints to the output only what was asked for. -/
theorem existsUnique_ending (engine : Log.Engine) (t : Tree) (args : List Bytes)
    (logVariable : Option Text) :
    (∃! ending, Cause t args ending ∧
      Effect t (run engine t args logVariable).1 (run engine t args logVariable).2 ending) ∧
    ((run engine t args logVariable).2.exitCode ≠ 0 → (run engine t args logVariable).1 = t) ∧
    ((run engine t args logVariable).2.exitCode = 0 ∧
        (run engine t args logVariable).2.output ≠ [] ↔
      ∃ flag, CommandLine.parse args = .error (.shown flag)) := by
  obtain ⟨ending, hcause, heffect⟩ := exists_cause_effect engine t args logVariable
  refine ⟨⟨ending, ⟨hcause, heffect⟩, fun other h => h.1.unique hcause⟩, ?_, ?_⟩
  · intro hcode
    cases ending with
    | informed flag => exact heffect.1
    | rejected report => exact heffect.1
    | embedded q => exact absurd heffect.2.1 hcode
    | failed q e => exact heffect.1
  · constructor
    · rintro ⟨hcode, houtput⟩
      cases ending with
      | informed flag => exact ⟨flag, hcause⟩
      | rejected report =>
        rw [heffect.2.1] at hcode
        cases hcode
      | embedded q => exact absurd heffect.2.2 houtput
      | failed q e =>
        rw [heffect.2.1] at hcode
        cases hcode
    · rintro ⟨flag, hp⟩
      rw [run_of_report hp, ofReport_shown]
      exact ⟨rfl, message_shown_ne_nil flag⟩

/-- A third argument, with a blank in a sequence that goes on after it. -/
def resumed : Bytes := Tree.ascii "\x1B \n\x01]0;t"

/-- **A message is not always printed as it is.** -/
theorem errors_resumed_ne_message :
    CommandLine.parse [Tree.ascii "a", Tree.ascii "b", resumed] = .error (.surplus resumed) ∧
    (Report.surplus resumed).isError = true ∧
    (run .plain Tree.initial [Tree.ascii "a", Tree.ascii "b", resumed] none).2.errors ≠
      (Report.surplus resumed).message := by
  decide +kernel

end Program

end RomEmbed
