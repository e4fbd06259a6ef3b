import TreeReduction.Proofs.CommandsInPlace
import TreeReduction.Proofs.TraceFiles

set_option autoImplicit false

/-!
# All or nothing

A command that fails has printed nothing, and every file is as before. A command that succeeds has
changed no file but the one that it was asked to write, which holds what it should
(`Acting.command_allOrNothing`).

A command prints and writes only after its last question, so this follows from what it comes to: an
effect or a fault (`Acting.CarriedOut`). What there is to write is read off from the answers of its
parts.
-/

namespace TreeReduction

/-- The path of the file that a command is asked to write, if it is. -/
def Command.output? : Command → Option String
  | .sealed _ output => output
  | .run _ _ _ traceOut _ => traceOut
  | _ => none

/-- Files differ from others in one place, where there is a file with the given content. -/
structure Files.DiffersAt (place : Location) (content : ByteArray) (before after : Files) :
    Prop where
  here_eq : after.here = before.here
  node?_place : after.node? place = some (.file content)
  node?_eq : ∀ other, other ≠ place → after.node? other = before.node? other

theorem Files.differsAt_put (f : Files) (place : Location) (content : ByteArray) :
    Files.DiffersAt place content f (f.put place content) where
  here_eq := rfl
  node?_place := f.node?_put_self place content
  node?_eq _ hother := f.node?_put_of_ne content hother

namespace Surroundings

open Performing

/-- A path names a place for a file: a name in the directory that the path leads to. -/
def Names (around : Surroundings) (path : String) (place : Location) : Prop :=
  ∃ directory name, around.outputPlace path = .ok (directory, name) ∧ place = directory.child name

/-- What the file is to hold that a command is asked to write: the document of the seed with its
checksum and the end of its last line, or the trace of the run in the format that was chosen. -/
inductive Yields (around : Surroundings) (s : Settings) : Command → ByteArray → Prop where
  | sealed {path source document : String} {output : Option String} {place : Location}
      (hplace : around.inputPlace path = .ok place) (hsource : around.readFile place = .ok source)
      (hsealed : s.loader.sealed source = .ok document) :
      Yields around s (.sealed path output) (document ++ "\n").toUTF8
  | run {path argument : String} {maxSteps : Option Nat} {traceOut : Option String}
      {format : TraceFormat} {halt : Halt} {e : Execution} {log mid : Log}
      (hruns : RunsTo around s path argument maxSteps log halt e mid) :
      Yields around s (.run path argument maxSteps traceOut format) (traceBytes e.trace format)

/-- The effect of a command writes no file unless the command is asked to, and then that file. -/
def Writes (around : Surroundings) (s : Settings) (c : Command) (effect : Effect) : Prop :=
  match c.output? with
  | none => effect.written = none
  | some out =>
    ∃ place content, effect.written = some ⟨place, content⟩ ∧ around.Names out place ∧
      around.Yields s c content

variable {around : Surroundings} {s : Settings} {json : Bool} {log after : Log} {effect : Effect}

theorem names_of_writing {out : String} {content : ByteArray} {w : Writing}
    (h : around.writing out content = .ok w) : around.Names out w.place ∧ w.content = content := by
  obtain ⟨directory, name, hplace, -, rfl⟩ := writing_eq_ok_iff.1 h
  exact ⟨⟨directory, name, hplace, rfl⟩, rfl⟩

theorem writes_of_giveChecksum {path : String} {output : Option String}
    (h : Answers (around.giveChecksum s path output) log effect after) :
    around.Writes s (.sealed path output) effect := by
  simp only [giveChecksum, answers_bind_iff, answers_orFault_iff] at h
  obtain ⟨place, _, ⟨hplace, rfl⟩, source, _, ⟨hsource, rfl⟩, document, _, ⟨hsealed, rfl⟩, h⟩ := h
  cases output with
  | none =>
    obtain ⟨rfl, -⟩ := answers_pure_iff.1 h
    rfl
  | some out =>
    simp only [answers_bind_iff, answers_orFault_iff, answers_report_iff, answers_pure_iff] at h
    obtain ⟨w, _, ⟨hw, rfl⟩, -, _, rfl, rfl, rfl⟩ := h
    obtain ⟨hnames, hcontent⟩ := names_of_writing hw
    refine ⟨w.place, w.content, rfl, hnames, ?_⟩
    rw [hcontent, Acting.ofLines_single]
    exact .sealed hplace hsource hsealed

theorem written_of_run_none {path argument : String} {maxSteps : Option Nat} {format : TraceFormat}
    (h : Answers (around.run s json path argument maxSteps none format) log effect after) :
    effect.written = none := by
  simp only [run, answers_bind_iff] at h
  obtain ⟨loaded, _, -, v, _, -, start, _, -, halt, _, -, -, _, -, h⟩ := h
  split at h
  · simp only [answers_bind_iff, answers_pure_iff] at h
    obtain ⟨-, _, -, rfl, -⟩ := h
    rfl
  · obtain ⟨rfl, -⟩ := answers_pure_iff.1 h
    rfl

theorem writes_of_run {path argument : String} {maxSteps : Option Nat} {traceOut : Option String}
    {format : TraceFormat}
    (h : Answers (around.run s json path argument maxSteps traceOut format) log effect after) :
    around.Writes s (.run path argument maxSteps traceOut format) effect := by
  cases traceOut with
  | none => exact written_of_run_none h
  | some out =>
    obtain ⟨halt, e, mid, w, hruns, hw, rfl, -⟩ := answers_run_iff.1 h
    obtain ⟨hnames, hcontent⟩ := names_of_writing hw
    exact ⟨w.place, w.content, rfl, hnames, hcontent ▸ .run hruns⟩

theorem writes_of_command {c : Command} (h : Answers (around.command s json c) log effect after) :
    around.Writes s c effect := by
  cases c with
  | «sealed» path output => exact writes_of_giveChecksum h
  | run path argument maxSteps traceOut format => exact writes_of_run h
  | verify path =>
    simp only [command, verify, answers_bind_iff, answers_pure_iff] at h
    obtain ⟨_, _, -, rfl, -⟩ := h
    rfl
  | step path argument =>
    simp only [command, step, answers_bind_iff, answers_pure_iff] at h
    obtain ⟨_, _, -, _, _, -, _, _, -, _, _, -, rfl, -⟩ := h
    rfl
  | classify argument normalize =>
    simp only [command, classify, answers_bind_iff] at h
    obtain ⟨v, _, -, h⟩ := h
    cases normalize <;>
    · obtain ⟨_, _, -, h⟩ := answers_bind_iff.1 h
      obtain ⟨rfl, -⟩ := answers_pure_iff.1 h
      rfl
  | digest argument =>
    simp only [command, digest, answers_bind_iff, answers_pure_iff] at h
    obtain ⟨_, _, -, rfl, -⟩ := h
    rfl

end Surroundings

namespace Acting

/-- How the files stand after a command that succeeded: as before, or but for the file that the
command was asked to write. -/
def Leaves (around : Surroundings) (s : Settings) (c : Command) (after : Files) : Prop :=
  match c.output? with
  | none => after = around.files
  | some out =>
    ∃ place content, around.Names out place ∧ around.Yields s c content ∧
      Files.DiffersAt place content around.files after

theorem leaves_apply {around : Surroundings} {s : Settings} {c : Command} {effect : Effect}
    (h : around.Writes s c effect) : Leaves around s c (effect.apply around.files) := by
  unfold Surroundings.Writes at h
  unfold Leaves
  cases hout : c.output? with
  | none =>
    simp only [hout] at h
    simp only [Effect.apply, h]
  | some out =>
    simp only [hout] at h
    obtain ⟨place, content, hwritten, hnames, hyields⟩ := h
    refine ⟨place, content, hnames, hyields, ?_⟩
    simp only [Effect.apply, hwritten]
    exact around.files.differsAt_put place content

/-- A command is carried out wholly or not at all, whatever the system refuses to write. It comes to
the effect of the command. If it fails, nothing was printed and the files are as before. If it
succeeds, they are as before but for the file that the command was asked to write, if it was. That
file is where its path leads and holds the document with its checksum and a line feed, or the trace
of the run in the format that was chosen. -/
theorem command_allOrNothing (refuses : Writing → Option AccessFault) (around : Surroundings)
    (s : Settings) (json : Bool) (c : Command) (scene : Scene) :
    let done := result (command refuses around s json c) scene
    CarriedOut refuses scene
        (Performing.result ((around.amid scene).command s json c) scene.log) done ∧
      (∀ fault, done.1 = .error fault →
        done.2.printed = scene.printed ∧ done.2.files = scene.files) ∧
      (done.1 = .ok () → Leaves (around.amid scene) s c done.2.files) := by
  intro done
  have h : CarriedOut refuses scene
      (Performing.result ((around.amid scene).command s json c) scene.log) done :=
    realizes_command s json c scene
  refine ⟨h, ?_⟩
  -- The constructors of `CarriedOut` say what both results are, so they are made variables.
  generalize hx : Performing.result ((around.amid scene).command s json c) scene.log = x at h
  generalize done = y at h ⊢
  cases h with
  | failed fault log => exact ⟨fun _ _ => ⟨rfl, rfl⟩, nofun⟩
  | refused hwritten hrefused log early => exact ⟨fun _ _ => ⟨rfl, rfl⟩, nofun⟩
  | done hwritten log =>
    exact ⟨nofun, fun _ => leaves_apply (Surroundings.writes_of_command hx)⟩

/-- A seed that is given its checksum and written to a file, and the same where that is refused. -/
theorem command_allOrNothing_sealed :
    let around := Surroundings.layering
    let c : Command := .sealed "seed" (some "out")
    let scene : Scene := ⟨around.files, "", []⟩
    (∃ after, result (command (fun _ => none) around {} false c) scene = (.ok (), after) ∧
      Leaves around {} c after.files) ∧
    ∃ fault after,
      result (command (fun _ => some .notFound) around {} false c) scene = (.error fault, after) ∧
        after.printed = "" ∧ after.files = around.files := by
  intro around c scene
  have hamid : around.amid scene = around := rfl
  constructor
  · have hok : (result (command (fun _ => none) around {} false c) scene).1.isOk = true := by
      decide +kernel
    obtain ⟨-, -, hleaves⟩ := command_allOrNothing (fun _ => none) around {} false c scene
    cases hresult : result (command (fun _ => none) around {} false c) scene with
    | mk answer after =>
      rw [hresult] at hok hleaves
      cases answer with
      | ok _ => exact ⟨after, rfl, hamid ▸ hleaves rfl⟩
      | error fault => simp [Except.isOk, Except.toBool] at hok
  · have hfails : (result (command (fun _ => some .notFound) around {} false c) scene).1.isOk =
        false := by
      decide +kernel
    obtain ⟨-, hkeeps, -⟩ := command_allOrNothing (fun _ => some .notFound) around {} false c scene
    cases hresult : result (command (fun _ => some .notFound) around {} false c) scene with
    | mk answer after =>
      rw [hresult] at hfails hkeeps
      cases answer with
      | ok _ => simp [Except.isOk, Except.toBool] at hfails
      | error fault => exact ⟨fault, after, rfl, hkeeps fault rfl⟩

end Acting

end TreeReduction
