import SoftCore.Invocation
import SoftCore.Proofs.HexBytes
import SoftCore.Proofs.RowWords

/-! What a run of the command leaves behind. Once a program has assembled nothing
can fail any more, since every row of a listing lies in the image; so the exit
code is the same for all subcommands. Where the report goes makes no difference
to it, and a run that fails writes to neither place. -/

namespace SoftCore

/-- An image that holds all entries of a program can be reported by every command. -/
theorem Command.exists_report {image : Image} {p : Program}
    (fit : ∀ e ∈ p.entries, image.fits e.address) (command : Command) :
    ∃ bytes, command.report image p = .ok bytes := by
  obtain ⟨rows, read⟩ := Report.exists_rows fit
  cases command with
  | hex => exact ⟨_, rfl⟩
  | bin => exact ⟨_, rfl⟩
  | listing form => cases form <;> exact ⟨_, by rw [report, read]; rfl⟩

namespace Invocation

/-- The run with its report on the standard output. -/
def toStdout (i : Invocation) : Invocation := { i with out := none }

/-- The run with its report in a file. -/
def toFile (i : Invocation) (file : Text) : Invocation := { i with out := some file }

/-- The run with another command. -/
def asking (i : Invocation) (command : Command) : Invocation := { i with command }

/-- The program file can be loaded and its program assembled. -/
def Assembles (i : Invocation) (contents : Option (List UInt8)) : Prop :=
  ∃ p image, ProgramFile.load i.input contents = .ok p ∧
    Assembly.assemble p.entries i.size = .ok image

theorem run_of_assemble {i : Invocation} {contents : Option (List UInt8)} {p : Program}
    {image : Image} (loaded : ProgramFile.load i.input contents = .ok p)
    (assembled : Assembly.assemble p.entries i.size = .ok image) :
    i.run contents = (i.command.report image p).mapError Failure.listing := by
  rw [run, loaded]
  show (Assembly.assemble p.entries i.size).mapError _ >>= _ = _
  rw [assembled]
  rfl

theorem exists_run_iff {i : Invocation} {contents : Option (List UInt8)} :
    (∃ bytes, i.run contents = .ok bytes) ↔ i.Assembles contents := by
  constructor
  · rintro ⟨bytes, ran⟩
    cases loaded : ProgramFile.load i.input contents with
    | error fault =>
      rw [run, loaded] at ran
      cases ran
    | ok p =>
      cases assembled : Assembly.assemble p.entries i.size with
      | error fault =>
        rw [run, loaded] at ran
        change (Assembly.assemble p.entries i.size).mapError _ >>= _ = _ at ran
        rw [assembled] at ran
        cases ran
      | ok image => exact ⟨p, image, loaded, assembled⟩
  · rintro ⟨p, image, loaded, assembled⟩
    obtain ⟨bytes, report⟩ := i.command.exists_report (Assembly.fits_of_assemble assembled)
    exact ⟨bytes, by rw [run_of_assemble loaded assembled, report]; rfl⟩

theorem run_toFile (i : Invocation) (file : Text) (contents : Option (List UInt8)) :
    (i.toFile file).run contents = i.toStdout.run contents := rfl

theorem outcome_of_ok {i : Invocation} {contents : Option (List UInt8)} {bytes : List UInt8}
    (h : i.toStdout.run contents = .ok bytes) (file : Text) :
    i.toStdout.outcome contents true =
        { success := true, stdout := bytes, stderr := [], saved := none } ∧
      (i.toFile file).outcome contents true =
        { success := true, stdout := [], stderr := [], saved := some bytes } := by
  constructor
  · rw [outcome, h]
    rfl
  · rw [outcome, run_toFile, h]
    rfl

theorem outcome_of_error {i : Invocation} {contents : Option (List UInt8)} {failure : Failure}
    (h : i.toStdout.run contents = .error failure) (file : Text) :
    i.toStdout.outcome contents true = failed failure ∧
      (i.toFile file).outcome contents true = failed failure := by
  constructor
  · rw [outcome, h]
  · rw [outcome, run_toFile, h]

theorem success_iff {i : Invocation} {contents : Option (List UInt8)} :
    (i.toStdout.outcome contents true).success = true ↔ i.Assembles contents := by
  have same : i.toStdout.Assembles contents ↔ i.Assembles contents := Iff.rfl
  rw [← same, ← exists_run_iff]
  cases ran : i.toStdout.run contents with
  | ok bytes => simp [(outcome_of_ok ran []).1]
  | error failure => simp [(outcome_of_error ran []).1, failed]

end Invocation

/-- Two runs with one exit code, of which the second saves what the first shows. Where they fail
neither shows or saves anything, and both complain alike. -/
structure Outcome.Agrees (shown saved : Outcome) : Prop where
  exit : saved.success = shown.success
  reported : shown.success = true →
    saved.stdout = [] ∧ saved.saved = some shown.stdout ∧ shown.saved = none
  silent : shown.success = false → shown.stdout = [] ∧ saved.stdout = [] ∧ shown.saved = none ∧
    saved.saved = none ∧ saved.stderr = shown.stderr

namespace Invocation

theorem agrees_toFile (i : Invocation) (file : Text) (contents : Option (List UInt8)) :
    (i.toStdout.outcome contents true).Agrees ((i.toFile file).outcome contents true) := by
  cases ran : i.toStdout.run contents with
  | ok bytes =>
    obtain ⟨shown, saved⟩ := outcome_of_ok ran file
    rw [shown, saved]
    exact ⟨rfl, fun _ => ⟨rfl, rfl, rfl⟩, fun h => nomatch h⟩
  | error failure =>
    obtain ⟨shown, saved⟩ := outcome_of_error ran file
    rw [shown, saved]
    exact ⟨rfl, (fun h => nomatch h), fun _ => ⟨rfl, rfl, rfl, rfl, rfl⟩⟩

theorem stdout_hex_of_assembles {i : Invocation} {contents : Option (List UInt8)}
    (h : i.Assembles contents) :
    ∃ groups, Report.Fours ((i.asking .bin).toStdout.outcome contents true).stdout groups ∧
      ((i.asking .hex).toStdout.outcome contents true).stdout =
        Text.utf8 (groups.flatMap Report.hexLine) := by
  obtain ⟨p, image, loaded, assembled⟩ := h
  have bin : (i.asking .bin).toStdout.run contents = .ok image.bytes.toList :=
    run_of_assemble loaded assembled
  have hex : (i.asking .hex).toStdout.run contents = .ok (Report.hexLines image).utf8 :=
    run_of_assemble loaded assembled
  obtain ⟨groups, fours, lines⟩ := Report.exists_fours image.bytes.toList
  refine ⟨groups, ?_, ?_⟩
  · rw [(outcome_of_ok bin []).1]
    exact fours
  · rw [(outcome_of_ok hex []).1, Report.hexLines, Image.words, lines]

/-- Runs with either place for their report, and for the hexadecimal report the bytes it shows. -/
theorem outcome_of_places (i : Invocation) (file : Text) (contents : Option (List UInt8)) :
    ((i.toStdout.outcome contents true).success = true ↔ i.Assembles contents) ∧
      (i.toStdout.outcome contents true).Agrees ((i.toFile file).outcome contents true) ∧
      (((i.asking .hex).toStdout.outcome contents true).success = true →
        ∃ groups, Report.Fours ((i.asking .bin).toStdout.outcome contents true).stdout groups ∧
          ((i.asking .hex).toStdout.outcome contents true).stdout =
            Text.utf8 (groups.flatMap Report.hexLine)) :=
  ⟨success_iff, agrees_toFile i file contents,
    fun success => stdout_hex_of_assembles (i := i) (success_iff (i := i.asking .hex).mp success)⟩

end Invocation
end SoftCore
