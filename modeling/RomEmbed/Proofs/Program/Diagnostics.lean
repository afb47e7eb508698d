import Mathlib.Data.List.Sublists
import Mathlib.Tactic.Common
import RomEmbed.Proofs.Program.Endings
import RomEmbed.Proofs.Text.Sequences

/-!
What the log variable does to a run. It chooses among the records of the embedding, and what
of it cannot be read is complained about; nothing else of a run depends on it. A record is
printed without control sequences and other control characters of ASCII, so its line is printed
as it is only where its message has none.
-/

namespace RomEmbed

open Files (Tree)

/-! ### What is let through -/

namespace Log

namespace Filter

/-- One threshold for all targets decides by the level alone. -/
lemma admits_forAll (threshold : Threshold) (r : Record) :
    (Filter.mk [⟨none, threshold⟩] everything).admits r = threshold.admits r.level := by
  simp [admits, Filter.threshold, decisive, Directive.covers, everything]

end Filter

namespace Setting

variable {engine : Engine}

lemma filter_unset : (ofVariable engine none).filter = ⟨[⟨none, some .warn⟩], everything⟩ := rfl

lemma complaints_unset : (ofVariable engine none).complaints = [] := rfl

lemma filter_admits_unset (rs : List Record) :
    rs.filter (ofVariable engine none).filter.admits = upTo (some .warn) rs := by
  rw [filter_unset]
  exact List.filter_congr fun r _ => Filter.admits_forAll (some .warn) r

end Setting

end Log

namespace Program

open CommandLine (Request)

/-! ### How a line is printed -/

/-- How the line of a record reaches a stream that is no terminal: without control sequences and
other control characters, and otherwise as it is. -/
structure Reaches (r : Log.Record) (printed : Text) : Prop where
  shown : ∀ c ∈ printed, Terminal.IsControl c → c ∈ ['\t', '\n', '\x0C', '\r']
  sublist : printed.Sublist (line r.line)
  filtered : '\x1B' ∉ r.message → printed = (line r.line).filter Terminal.isShown
  cleaned : ∀ m, Terminal.Cleaned r.message m → printed = line { r with message := m }.line
  strips : ∀ u, Terminal.Strips .ground (line r.line) u ↔ u = printed
  whole : printed = line r.line ↔
    ∀ c ∈ r.message, Terminal.IsControl c → c ∈ ['\t', '\n', '\x0C', '\r']

lemma isShown_head (l : Log.Level) :
    ∀ c ∈ l.label.toList ++ ": ".toList, Terminal.isShown c = true := by
  cases l <;> exact List.all_eq_true.mp (by decide)

lemma isShown_break : ∀ c ∈ ['\n'], Terminal.isShown c = true := List.all_eq_true.mp (by decide)

lemma forall_mem_line_iff (r : Log.Record) :
    (∀ c ∈ line r.line, Terminal.isShown c = true) ↔
      ∀ c ∈ r.message, Terminal.isShown c = true := by
  rw [line, Log.Record.line, List.forall_mem_append, List.forall_mem_append]
  exact ⟨fun h => h.1.2, fun h => ⟨⟨isShown_head r.level, h⟩, isShown_break⟩⟩

lemma escape_not_mem_line {r : Log.Record} (h : '\x1B' ∉ r.message) : '\x1B' ∉ line r.line := by
  have hhead : '\x1B' ∉ r.level.label.toList ++ ": ".toList := fun hmem =>
    absurd (isShown_head r.level _ hmem) (by decide)
  rw [line, Log.Record.line, List.mem_append, List.mem_append]
  rintro ((hmem | hmem) | hmem)
  · exact hhead hmem
  · exact h hmem
  · exact absurd hmem (by decide)

theorem reaches_streamed (r : Log.Record) : Reaches r (Terminal.streamed (line r.line)) where
  shown _ hc := Terminal.isShown_iff.mp (Terminal.isShown_of_mem_keep hc)
  sublist := Terminal.keep_sublist .putsOff (line r.line)
  filtered h := Terminal.keep_of_no_escape (escape_not_mem_line h)
  cleaned _ h := Terminal.streamed_of_cleaned
    (((Terminal.Cleaned.of_shown (isShown_head r.level)).append h).append (.of_shown isShown_break))
  strips _ := Terminal.strips_iff
  whole := by
    rw [Terminal.streamed, Terminal.keep_eq_self_iff, forall_mem_line_iff]
    simp only [Terminal.isShown_iff]

/-! ### The three parts of the error stream -/

/-- What of the variable cannot be read. -/
def complaintLines (engine : Log.Engine) (logVariable : Option Text) : Text :=
  (Log.Setting.ofVariable engine logVariable).complaints.flatMap line

/-- Records as they reach a stream that is no terminal. -/
def recordLines (rs : List Log.Record) : Text :=
  rs.flatMap fun r => Terminal.streamed (line r.line)

def failureLines (o : Embedding.Outcome) : Text :=
  match o.result with
  | .ok _ => []
  | .error e => failureLine e

/-- What there is to warn of: a name that is not plain, once there is an image. -/
def warnings (t : Tree) (q : Request) : List Log.Record :=
  match Rom.load t q.rom with
  | .ok _ => if ClassName.isPlain q.name then [] else [Embedding.notPlain q.name]
  | .error _ => []

variable {engine : Log.Engine} {t : Tree} {args : List Bytes} {q : Request}

lemma errors_ofOutcome (engine : Log.Engine) (logVariable : Option Text) (o : Embedding.Outcome) :
    (ofOutcome (.ofVariable engine logVariable) o).errors =
      complaintLines engine logVariable ++
        recordLines (o.records.filter (Log.Setting.ofVariable engine logVariable).filter.admits) ++
        failureLines o := by
  rcases hr : o.result with e | p <;>
    simp [ofOutcome, failureLines, complaintLines, recordLines, hr]

/-- Warnings are all that an embedding records at the level of warnings or above. -/
lemma upTo_warn_records (t : Tree) (q : Request) :
    Log.upTo (some .warn) (embed t q.rom q.name).2.records = warnings t q := by
  rcases hl : Rom.load t q.rom with e | rom
  · rw [Embedding.embed_of_unloaded hl]
    simp only [warnings, hl]
    rfl
  · have hloaded : Log.Threshold.admits (some .warn) (Embedding.loaded q.rom rom).level = false :=
      rfl
    have hwrote : Log.Threshold.admits (some .warn) (Embedding.wrote q.name rom).level = false :=
      rfl
    have hnotPlain : Log.Threshold.admits (some .warn) (Embedding.notPlain q.name).level = true :=
      rfl
    rw [Embedding.embed_of_loaded hl]
    rcases (Embedding.overwritten t q.name rom).2 with e | ⟨⟩ <;>
      cases hplain : ClassName.isPlain q.name <;>
      simp [Embedding.afterWriting, warnings, Log.upTo, hl, hplain, hloaded, hwrote, hnotPlain]

lemma errors_unset (h : CommandLine.parse args = .ok q) :
    (run engine t args none).2.errors =
      recordLines (warnings t q) ++ failureLines (embed t q.rom q.name).2 := by
  rw [run_of_request h, errors_ofOutcome, Log.Setting.filter_admits_unset, upTo_warn_records,
    complaintLines, Log.Setting.complaints_unset]
  rfl

/-- A run that succeeds with a plain name is silent unless more is asked for. -/
lemma errors_unset_of_plain (h : CommandLine.parse args = .ok q) {p : Bytes}
    (hr : (embed t q.rom q.name).2.result = .ok p) (hplain : ClassName.isPlain q.name = true) :
    (run engine t args none).2.errors = [] := by
  obtain ⟨-, rom, -, hl, -⟩ := Embedding.exists_of_result_ok hr
  rw [errors_unset h]
  simp [warnings, recordLines, failureLines, hl, hplain, hr]

/-- Up to the error stream, a run is the same whatever the variable is. -/
lemma run_congr_logVariable (engine : Log.Engine) (t : Tree) (args : List Bytes)
    (v w : Option Text) :
    (run engine t args v).1 = (run engine t args w).1 ∧
      (run engine t args v).2.exitCode = (run engine t args w).2.exitCode ∧
      (run engine t args v).2.output = (run engine t args w).2.output := by
  rcases hp : CommandLine.parse args with report | q
  · rw [run_of_report hp, run_of_report hp]
    exact ⟨rfl, rfl, rfl⟩
  · rw [run_of_request hp, run_of_request hp]
    rcases hr : (embed t q.rom q.name).2.result with e | p <;> simp [ofOutcome, hr]

/-- **The log variable decides nothing but which diagnostics are shown.** Complaints about it
come first, then some of the records in their order, then the failure. Unset it lets warnings
through. Of a record's line control sequences and other control characters of ASCII are left out
and nothing else, so it is printed as it is exactly if the message has none but blanks. -/
theorem run_logVariable (engine : Log.Engine) (t : Tree) (args : List Bytes) :
    (∀ v w, (run engine t args v).1 = (run engine t args w).1 ∧
      (run engine t args v).2.exitCode = (run engine t args w).2.exitCode ∧
      (run engine t args v).2.output = (run engine t args w).2.output) ∧
    (∀ report, CommandLine.parse args = .error report →
      ∀ v w, (run engine t args v).2.errors = (run engine t args w).2.errors) ∧
    (∀ q, CommandLine.parse args = .ok q →
      (∀ v, ∃ shown, shown.Sublist (Log.upTo (some .trace) (embed t q.rom q.name).2.records) ∧
        (run engine t args v).2.errors =
          complaintLines engine v ++ recordLines shown ++ failureLines (embed t q.rom q.name).2) ∧
      (run engine t args none).2.errors =
        recordLines (warnings t q) ++ failureLines (embed t q.rom q.name).2 ∧
      (∀ p, (embed t q.rom q.name).2.result = .ok p → ClassName.isPlain q.name = true →
        (run engine t args none).2.errors = [])) ∧
    ∀ r, Reaches r (Terminal.streamed (line r.line)) := by
  refine ⟨run_congr_logVariable engine t args, fun report hp v w => ?_,
    fun q hp => ⟨fun v => ?_, ?_, ?_⟩, reaches_streamed⟩
  · rw [run_of_report hp, run_of_report hp]
  · refine ⟨(embed t q.rom q.name).2.records.filter (Log.Setting.ofVariable engine v).filter.admits,
      ?_, ?_⟩
    · rw [Log.upTo_trace]
      exact List.filter_sublist
    · rw [run_of_request hp, errors_ofOutcome]
  · exact errors_unset hp
  · exact fun p hr hplain => errors_unset_of_plain hp hr hplain

/-- A name with a character that no stream shows. -/
def rubbed : Request := ⟨Tree.ascii "R", ['a', '\x7F']⟩

/-- An image to embed under that name. -/
def imaged : Tree := Tree.initial.addFile (Tree.initial.cwd ++ [Tree.ascii "R"]) [0]

/-- **The warning is not printed as it is recorded.** -/
theorem errors_rubbed_ne_lines :
    CommandLine.parse [rubbed.rom, Utf8.encode rubbed.name] = .ok rubbed ∧
    (embed imaged rubbed.rom rubbed.name).2.result = .ok (ClassName.file rubbed.name) ∧
    ∀ shown : List Log.Record,
      shown.Sublist (Log.upTo (some .trace) (embed imaged rubbed.rom rubbed.name).2.records) →
      (run .plain imaged [rubbed.rom, Utf8.encode rubbed.name] none).2.errors ≠
        complaintLines .plain none ++ shown.flatMap (fun r => line r.line) ++
          failureLines (embed imaged rubbed.rom rubbed.name).2 := by
  have hsublists : ∀ shown ∈
      (Log.upTo (some .trace) (embed imaged rubbed.rom rubbed.name).2.records).sublists,
      (run .plain imaged [rubbed.rom, Utf8.encode rubbed.name] none).2.errors ≠
        complaintLines .plain none ++ shown.flatMap (fun r => line r.line) ++
          failureLines (embed imaged rubbed.rom rubbed.name).2 := by
    decide +kernel
  exact ⟨by decide +kernel, by decide +kernel,
    fun shown hshown => hsublists shown (List.mem_sublists.mpr hshown)⟩

end Program

end RomEmbed
