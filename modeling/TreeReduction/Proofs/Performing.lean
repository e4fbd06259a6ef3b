import TreeReduction.Command.Perform
import TreeReduction.Proofs.TextLengths

set_option autoImplicit false

/-!
# What a command answers

A command is a computation that may fail and keeps a log. `Performing.Answers` says that it does not
fail, what it answers, and what the log is then. It follows the computation part by part, so a
command that answers has been given everything that its parts ask for: a run has a seed and a value
that were read, and an execution that was let in.

A seed is read from a file of a bounded size, so the ids of its projections are short
(`Surroundings.utf8ByteSize_lt_of_seed`).
-/

namespace TreeReduction

namespace Performing

variable {α β : Type}

/-- What a computation comes to that is begun with a log: an answer or a fault, and the log then. -/
def result (x : Performing α) (log : Log) : Except CommandFault α × Log :=
  x.run.run log

/-- A computation that is begun with a log answers something and ends with another log. -/
def Answers (x : Performing α) (log : Log) (a : α) (after : Log) : Prop :=
  result x log = (.ok a, after)

theorem result_bind (x : Performing α) (f : α → Performing β) (log : Log) :
    result (x >>= f) log =
      match result x log with
      | (.ok a, mid) => result (f a) mid
      | (.error fault, mid) => (.error fault, mid) := by
  unfold result ExceptT.run StateT.run
  simp only [bind, ExceptT.bind, ExceptT.mk, StateT.bind, ExceptT.bindCont]
  cases x log with
  | mk answer mid => cases answer <;> rfl

theorem result_orFault {ε : Type} (fault : ε → CommandFault) (x : Except ε α) (log : Log) :
    result (orFault fault x) log = (x.mapError fault, log) := by
  cases x <;> rfl

variable {log after : Log}

theorem exists_answers_of_isOk {x : Performing α} (h : (result x log).1.isOk = true) :
    ∃ a after, Answers x log a after := by
  cases hresult : result x log with
  | mk answer after =>
    cases answer with
    | ok a => exact ⟨a, after, hresult⟩
    | error fault =>
      rw [hresult] at h
      simp [Except.isOk, Except.toBool] at h

theorem answers_pure_iff {a b : α} : Answers (pure a) log b after ↔ b = a ∧ after = log := by
  have hpure : result (pure a : Performing α) log = (.ok a, log) := rfl
  rw [Answers, hpure, Prod.mk.injEq, Except.ok.injEq, eq_comm, @eq_comm _ log]

theorem answers_bind_iff {x : Performing α} {f : α → Performing β} {b : β} :
    Answers (x >>= f) log b after ↔
      ∃ a mid, Answers x log a mid ∧ Answers (f a) mid b after := by
  unfold Answers
  rw [result_bind]
  cases hx : result x log with
  | mk answer mid => cases answer <;> simp

theorem answers_tell_iff {news : Log} {u : Unit} :
    Answers (tell news) log u after ↔ after = log ++ news := by
  have htell : result (tell news) log = (.ok (), log ++ news) := rfl
  rw [Answers, htell, Prod.mk.injEq, and_iff_right rfl, eq_comm]

theorem answers_orFault_iff {ε : Type} {fault : ε → CommandFault} {x : Except ε α} {a : α} :
    Answers (orFault fault x) log a after ↔ x = .ok a ∧ after = log := by
  rw [Answers, result_orFault]
  cases x <;> simp [Except.mapError, eq_comm]

end Performing

open Performing

namespace Surroundings

variable {around : Surroundings} {s : Settings} {log after : Log}

theorem answers_report_iff {level : Severity} {message : String} {fields : List (String × String)}
    {u : Unit} :
    Answers (around.report level message fields) log u after ↔
      after = log ++ Log.one around.least level message fields :=
  answers_tell_iff

/-! ## Files that are read -/

/-- The log of reading the seed at a place. -/
def seedLog (around : Surroundings) (place : Location) (loaded : Seed) : Log :=
  Log.one around.least .debug "reading seed"
      [("path", place.text), ("bytes", toString (around.sizeOf place))] ++
    Seed.loadLog around.least loaded

theorem answers_seed_iff {path : String} {loaded : Seed} :
    Answers (around.seed s path) log loaded after ↔
      ∃ place text, around.inputPlace path = .ok place ∧ around.seedText place = .ok text ∧
        s.loader.load text = .ok loaded ∧ after = log ++ around.seedLog place loaded := by
  simp only [seed, seedLog, answers_bind_iff, answers_orFault_iff, answers_report_iff,
    answers_tell_iff, answers_pure_iff]
  constructor
  · rintro ⟨place, _, ⟨hplace, rfl⟩, text, _, ⟨htext, rfl⟩, -, _, rfl, loaded, _, ⟨hload, rfl⟩,
      -, _, rfl, rfl, rfl⟩
    exact ⟨place, text, hplace, htext, hload, List.append_assoc ..⟩
  · rintro ⟨place, text, hplace, htext, hload, rfl⟩
    exact ⟨place, _, ⟨hplace, rfl⟩, text, _, ⟨htext, rfl⟩, (), _, rfl, loaded, _, ⟨hload, rfl⟩,
      (), _, rfl, rfl, (List.append_assoc ..).symm⟩

theorem answers_value_iff {argument : String} {v : Value} :
    Answers (around.value s argument) log v after ↔
      ∃ text, around.valueText argument = .ok text ∧ Value.parse s.limits text = .ok v ∧
        after = log := by
  simp only [value, answers_bind_iff, answers_orFault_iff]
  constructor
  · rintro ⟨text, _, ⟨htext, rfl⟩, hparse, rfl⟩
    exact ⟨text, htext, hparse, rfl⟩
  · rintro ⟨text, htext, hparse, rfl⟩
    exact ⟨text, _, ⟨htext, rfl⟩, hparse, rfl⟩

/-- A text has as many bytes as the file that it is decoded from. -/
theorem utf8ByteSize_of_readFile {place : Location} {text : String}
    (h : around.readFile place = .ok text) : text.utf8ByteSize = around.sizeOf place := by
  unfold readFile at h
  cases hcontent : around.files.content place with
  | error cause => simp [hcontent] at h
  | ok content =>
    rw [hcontent] at h
    simp only [Files.decode] at h
    split at h
    · rename_i other hdecode
      obtain rfl := Except.ok.inj h
      rw [sizeOf, hcontent]
      unfold String.fromUTF8? at hdecode
      split at hdecode
      · obtain rfl := Option.some.inj hdecode
        rfl
      · simp at hdecode
    · simp at h

/-- The text of a seed is no longer than a file may be. -/
theorem utf8ByteSize_of_seedText {place : Location} {text : String}
    (h : around.seedText place = .ok text) : text.utf8ByteSize ≤ maxFileBytes := by
  unfold seedText at h
  simp only at h
  split at h
  · simp at h
  · rename_i hsize
    split at h
    · rename_i other hread
      obtain rfl := Except.ok.inj h
      rw [utf8ByteSize_of_readFile hread]
      exact Nat.le_of_not_lt hsize
    · simp at h

/-- The ids of a seed that was read are short, since the file was. -/
theorem utf8ByteSize_lt_of_seed {path : String} {loaded : Seed}
    (h : Answers (around.seed s path) log loaded after) :
    ∀ id ∈ loaded.catalog.ids, id.utf8ByteSize < 2 ^ 64 := by
  obtain ⟨place, text, -, htext, hload, -⟩ := answers_seed_iff.1 h
  intro id hid
  have hlength := Seed.Loader.length_le_of_load hload id hid
  have hbytes := utf8ByteSize_of_seedText htext
  have hchars := length_le_utf8ByteSize text
  have hid := utf8ByteSize_le id
  rw [maxFileBytes] at hbytes
  omega

/-! ## Files that are written -/

theorem writing_eq_ok_iff {path : String} {content : ByteArray} {w : Writing} :
    around.writing path content = .ok w ↔
      ∃ directory name, around.outputPlace path = .ok (directory, name) ∧
        around.files.checkWritable directory name = .ok () ∧
          w = ⟨directory.child name, content⟩ := by
  unfold writing
  cases hplace : around.outputPlace path with
  | error fault => simp
  | ok found =>
    obtain ⟨directory, name⟩ := found
    cases hwritable : around.files.checkWritable directory name with
    | error cause => simp [hwritable]
    | ok _ => simp [hwritable, eq_comm]

end Surroundings

end TreeReduction
