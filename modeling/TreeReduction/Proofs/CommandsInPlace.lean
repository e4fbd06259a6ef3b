import TreeReduction.Proofs.Performing

set_option autoImplicit false

/-!
# Commands in place

A command can be carried out on the spot: it prints one line after the other, and it writes its
file when it has come that far (`Acting.command`). What it has done by the time it fails is done.

`Acting.realizes_command` says that this comes to the effect of the command, which is otherwise
found out first and then performed. A command in place may fail once more, where its file is
written, and changes nothing then.
-/

namespace TreeReduction

/-- What a command changes while it goes on. -/
structure Scene where
  files : Files
  /-- what has been printed so far -/
  printed : String
  log : Log

/-- A scene after a file was written. -/
def Scene.write (scene : Scene) (w : Writing) : Scene :=
  { scene with files := scene.files.put w.place w.content }

/-- The surroundings of a command with the files that a scene has. -/
def Surroundings.amid (around : Surroundings) (scene : Scene) : Surroundings :=
  { around with files := scene.files }

/-- A computation in the midst of a scene. Where it fails, the scene stays as it is by then. -/
abbrev Acting (α : Type) : Type := ExceptT CommandFault (StateM Scene) α

namespace Acting

variable {α β : Type}

/-- How a computation ends that is begun in a scene: an answer or a fault, and the scene then. -/
def result (x : Acting α) (scene : Scene) : Except CommandFault α × Scene :=
  x.run.run scene

/-! ## What a command does to the scene -/

/-- Prints a text. -/
def print (text : String) : Acting Unit :=
  modify fun scene => { scene with printed := scene.printed ++ text }

/-- Prints a line with its end. -/
def printLine (line : String) : Acting Unit :=
  print (line ++ "\n")

/-- Does a part of a command that only looks at the files, as they are now, and keeps a log. -/
def consult (around : Surroundings) (x : Surroundings → Performing α) : Acting α :=
  ExceptT.mk fun scene =>
    let done := Performing.result (x (around.amid scene)) scene.log
    (done.1, { scene with log := done.2 })

/-- Adds one message to the log, if it is wanted. -/
def report (around : Surroundings) (level : Severity) (message : String)
    (fields : List (String × String)) : Acting Unit :=
  consult around (·.report level message fields)

/-- Writes a file of the given name in a directory. It fails where there can be no such file, or
where the system refuses for a reason of its own, and changes nothing then. -/
def store (refuses : Writing → Option AccessFault) (directory : Location) (name : String)
    (content : ByteArray) : Acting Unit := do
  match (← get).files.checkWritable directory name with
  | .error cause => throw (.file (.unwritable cause))
  | .ok _ =>
    match refuses ⟨directory.child name, content⟩ with
    | some cause => throw (.file (.unwritable cause))
    | none => modify (·.write ⟨directory.child name, content⟩)

section Commands

variable (refuses : Writing → Option AccessFault) (around : Surroundings)

open Performing (orFault tell)

/-- Writes a file at a path. -/
def writeFile (path : String) (content : ByteArray) : Acting Writing := do
  let (directory, name) ← consult around fun here => orFault .file (here.outputPlace path)
  store refuses directory name content
  return ⟨directory.child name, content⟩

/-! ## The commands -/

/-- Tells what a seed holds. -/
def verify (s : Settings) (json : Bool) (path : String) : Acting Unit := do
  let loaded ← consult around (·.seed s path)
  if json then
    print (Report.seedJson path loaded)
  else
    printLine "Seed Verified"
    printLine "============="
    printLine s!"Name:     {loaded.name}"
    printLine s!"Version:  {loaded.version}"
    printLine s!"Checksum: {loaded.checksum}"
    printLine ""
    printLine s!"Projections ({loaded.catalog.size}, in order):"
    (loaded.catalog.ids.zipIdx 1).forM fun p =>
      printLine s!"  {Report.threePlaces p.2}. {p.1}"

/-- Gives a seed its checksum. -/
def giveChecksum (s : Settings) (path : String) (output : Option String) : Acting Unit := do
  let place ← consult around fun here => orFault .file (here.inputPlace path)
  let source ← consult around fun here => orFault (.file ∘ .unreadable) (here.readFile place)
  let sealedText ← consult around fun _ => orFault .seed (s.loader.sealed source)
  match output with
  | none => printLine sealedText
  | some path =>
    let w ← writeFile refuses around path (sealedText ++ "\n").toUTF8
    report around .info "seed sealed" [("output", w.place.text)]

/-- Takes a step. -/
def step (s : Settings) (json : Bool) (path argument : String) : Acting Unit := do
  let loaded ← consult around (·.seed s path)
  let v ← consult around (·.value s argument)
  let kernel : Kernel := ⟨loaded.catalog, s.limits⟩
  let outcome ← consult around fun _ => orFault .value (kernel.outcome v)
  consult around fun here => tell (kernel.stepLog here.least v)
  let result := Report.StepResult.of v outcome
  if json then
    print (Report.stepJson result)
  else
    printLine result.value.canonical
    match result.projection, result.stall with
    | _, some stall => printLine s!"stalled: {stall}"
    | some projection, none => printLine s!"fired: {projection}"
    | none, none => pure ()

/-- Tells of a run. -/
def printRun (json : Bool) (halt : Halt) (e : Execution) : Acting Unit := do
  if json then
    print (Report.runJson halt e)
  else
    printLine e.value.canonical
    printLine ""
    printLine s!"Halt:           {halt.text}"
    printLine s!"Steps:          {e.steps}"
    printLine s!"Trace checksum: {(Trace.checksum e.trace).hex}"
    if 0 < e.dropped then
      printLine s!"Trace:          truncated ({e.dropped} events dropped)"
    if e.evidence.isEmpty then
      printLine "Evidence:       none"
    else
      printLine "Evidence:"
      e.evidence.toList.forM fun known =>
        printLine s!"  {known.pattern} at {known.value.hex} ({known.reason})"

/-- Writes a trace, if there is a path for it. -/
def writeTrace (trace : Trace) (format : TraceFormat) : Option String → Acting Unit
  | none => pure ()
  | some path => do
    let content := Surroundings.traceBytes trace format
    let w ← writeFile refuses around path content
    report around .info "trace written"
      [("output", w.place.text), ("bytes", toString content.size)]

/-- Runs. -/
def run (s : Settings) (json : Bool) (path argument : String) (maxSteps : Option Nat)
    (traceOut : Option String) (format : TraceFormat) : Acting Unit := do
  let loaded ← consult around (·.seed s path)
  let v ← consult around (·.value s argument)
  let start ← consult around fun _ => orFault .value (Execution.start ⟨loaded.catalog, s.limits⟩ v)
  let (halted, e) := start.run (Surroundings.budget s maxSteps)
  let halt ← consult around fun _ => orFault .refused halted
  consult around fun here => tell (start.runLog here.least (Surroundings.budget s maxSteps))
  if 0 < e.dropped then
    report around .warn "event log full, trace is truncated" [("dropped", toString e.dropped)]
  writeTrace refuses around e.trace format traceOut
  printRun json halt e

/-- Tells of the shape of a value and of how it is linked. -/
def printShape (json : Bool) (v : Value) (linked : Option Value) : Acting Unit := do
  if json then
    print (Report.shapeJson v.shape linked)
  else
    printLine s!"Shape: {Report.shapeName v.shape}"
    match linked with
    | some u => printLine s!"Normalized: {u.canonical}"
    | none => pure ()

/-- Tells the shape of a value. -/
def classify (s : Settings) (json : Bool) (argument : String) (normalize : Bool) :
    Acting Unit := do
  let v ← consult around (·.value s argument)
  let linked ← consult around fun _ =>
    if normalize then some <$> orFault .value (v.toLinkedWithin s.limits) else pure none
  printShape json v linked

/-- Tells the digest of a value. -/
def digest (s : Settings) (json : Bool) (argument : String) : Acting Unit := do
  let v ← consult around (·.value s argument)
  if json then print (Report.digestJson v) else printLine v.digest.hex

/-- Carries a command out. -/
def command (s : Settings) (json : Bool) : Command → Acting Unit
  | .verify path => verify around s json path
  | .sealed path output => giveChecksum refuses around s path output
  | .step path argument => step around s json path argument
  | .run path argument maxSteps traceOut format =>
    run refuses around s json path argument maxSteps traceOut format
  | .classify argument normalize => classify around s json argument normalize
  | .digest argument => digest around s json argument

/-- Carries an invocation out: reads the settings and then carries the command out. -/
def invocation (i : Invocation) : Acting Unit := do
  command refuses around (← consult around (·.settings i.config)) i.json i.command

end Commands

/-! ## Printing -/

theorem result_bind (x : Acting α) (f : α → Acting β) (scene : Scene) :
    result (x >>= f) scene =
      match result x scene with
      | (.ok a, mid) => result (f a) mid
      | (.error fault, mid) => (.error fault, mid) := by
  unfold result ExceptT.run StateT.run
  simp only [bind, ExceptT.bind, ExceptT.mk, StateT.bind, ExceptT.bindCont]
  cases x scene with
  | mk answer mid => cases answer <;> rfl

/-- A computation prints a text and does nothing else. -/
def Prints (x : Acting Unit) (text : String) : Prop :=
  ∀ scene, result x scene = (.ok (), { scene with printed := scene.printed ++ text })

theorem ofLines_cons (line : String) (rest : List String) :
    Report.ofLines (line :: rest) = line ++ "\n" ++ Report.ofLines rest := by
  simp only [Report.ofLines, List.map_cons, String.join_cons]

theorem ofLines_single (line : String) : Report.ofLines [line] = line ++ "\n" := by
  simp [Report.ofLines]

theorem prints_print (text : String) : Prints (print text) text := fun _ => rfl

theorem prints_pure : Prints (pure ()) (Report.ofLines []) := by
  intro scene
  show (Except.ok (), scene) = (Except.ok (), { scene with printed := scene.printed ++ "" })
  rw [String.append_empty]

theorem prints_printLine (line : String) : Prints (printLine line) (Report.ofLines [line]) :=
  ofLines_single line ▸ prints_print (line ++ "\n")

/-- One line is printed in front of others. -/
theorem Prints.cons {x : Acting Unit} {rest : List String} (h : Prints x (Report.ofLines rest))
    (line : String) :
    Prints (printLine line >>= fun _ => x) (Report.ofLines (line :: rest)) := by
  intro scene
  have hline : result (printLine line) scene =
      (.ok (), { scene with printed := scene.printed ++ (line ++ "\n") }) := rfl
  have hrest := h { scene with printed := scene.printed ++ (line ++ "\n") }
  rw [String.append_assoc, ← ofLines_cons] at hrest
  rw [result_bind, hline]
  exact hrest

theorem prints_forM (f : α → String) (xs : List α) :
    Prints (xs.forM fun x => printLine (f x)) (Report.ofLines (xs.map f)) := by
  induction xs with
  | nil => exact prints_pure
  | cons x rest ih => exact ih.cons (f x)

/-! ## Commands in place and their effects -/

section Realizes

variable {refuses : Writing → Option AccessFault} {around : Surroundings}

open Performing (orFault)

/-- What becomes of an effect, or of the fault that there is instead, in a scene: the fault is
reported, the effect is performed, or its file cannot be written. -/
inductive CarriedOut (refuses : Writing → Option AccessFault) (scene : Scene) :
    Except CommandFault Effect × Log → Except CommandFault Unit × Scene → Prop where
  | failed (fault : CommandFault) (log : Log) :
      CarriedOut refuses scene (.error fault, log) (.error fault, { scene with log })
  | done {effect : Effect} (hwritten : ∀ w, effect.written = some w → refuses w = none)
      (log : Log) :
      CarriedOut refuses scene (.ok effect, log)
        (.ok (), ⟨effect.apply scene.files, scene.printed ++ effect.printed, log⟩)
  | refused {effect : Effect} {w : Writing} {cause : AccessFault}
      (hwritten : effect.written = some w) (hrefused : refuses w = some cause) (log early : Log) :
      CarriedOut refuses scene (.ok effect, log)
        (.error (.file (.unwritable cause)), { scene with log := early })

/-- A computation in place does what another one finds out in the same surroundings. -/
def Realizes (refuses : Writing → Option AccessFault) (around : Surroundings) (y : Acting Unit)
    (x : Surroundings → Performing Effect) : Prop :=
  ∀ scene, CarriedOut refuses scene (Performing.result (x (around.amid scene)) scene.log)
    (result y scene)

/-- What comes of an effect does not depend on the log that there was. -/
theorem CarriedOut.of_log {scene : Scene} {log : Log}
    {x : Except CommandFault Effect × Log} {y : Except CommandFault Unit × Scene}
    (h : CarriedOut refuses { scene with log } x y) : CarriedOut refuses scene x y := by
  cases h with
  | failed fault log => exact .failed fault log
  | done hwritten log => exact .done hwritten log
  | refused hwritten hrefused log early => exact .refused hwritten hrefused log early

theorem result_consult (x : Surroundings → Performing α) (scene : Scene) :
    result (consult around x) scene =
      ((Performing.result (x (around.amid scene)) scene.log).1,
        { scene with log := (Performing.result (x (around.amid scene)) scene.log).2 }) :=
  rfl

/-- Both begin by looking at the files and go on with what is found. -/
theorem realizes_consult_bind {x : Surroundings → Performing α} {g : α → Acting Unit}
    {f : α → Surroundings → Performing Effect} (h : ∀ a, Realizes refuses around (g a) (f a)) :
    Realizes refuses around (consult around x >>= g) fun here => x here >>= fun a => f a here := by
  intro scene
  rw [Performing.result_bind, result_bind, result_consult]
  cases Performing.result (x (around.amid scene)) scene.log with
  | mk answer log =>
    cases answer with
    | error fault => exact .failed fault log
    | ok a => exact .of_log (h a { scene with log })

/-- Printing realizes an effect that only prints. -/
theorem Prints.realizes {y : Acting Unit} {text : String} (h : Prints y text) :
    Realizes refuses around y fun _ => pure { printed := text } := by
  intro scene
  rw [h scene]
  exact .done (by simp) scene.log

/-! ### Writing -/

theorem result_consult_orFault {ε : Type} (fault : ε → CommandFault)
    (x : Surroundings → Except ε α) (scene : Scene) :
    result (consult around fun here => orFault fault (x here)) scene =
      ((x (around.amid scene)).mapError fault, scene) := by
  rw [result_consult, Performing.result_orFault]

theorem result_store (directory : Location) (name : String) (content : ByteArray) (scene : Scene) :
    result (store refuses directory name content) scene =
      match scene.files.checkWritable directory name with
      | .error cause => (.error (.file (.unwritable cause)), scene)
      | .ok _ =>
        match refuses ⟨directory.child name, content⟩ with
        | some cause => (.error (.file (.unwritable cause)), scene)
        | none => (.ok (), scene.write ⟨directory.child name, content⟩) := by
  have hstore : result (store refuses directory name content) scene =
      result
        (match scene.files.checkWritable directory name with
        | .error cause => throw (.file (.unwritable cause))
        | .ok _ =>
          match refuses ⟨directory.child name, content⟩ with
          | some cause => throw (.file (.unwritable cause))
          | none => modify (·.write ⟨directory.child name, content⟩))
        scene := rfl
  rw [hstore]
  cases scene.files.checkWritable directory name with
  | error cause => rfl
  | ok _ => cases refuses ⟨directory.child name, content⟩ <;> rfl

theorem result_writeFile (path : String) (content : ByteArray) (scene : Scene) :
    result (writeFile refuses around path content) scene =
      match (around.amid scene).writing path content with
      | .error fault => (.error (.file fault), scene)
      | .ok w =>
        match refuses w with
        | some cause => (.error (.file (.unwritable cause)), scene)
        | none => (.ok w, scene.write w) := by
  rw [writeFile, result_bind, result_consult_orFault, Surroundings.writing]
  cases (around.amid scene).outputPlace path with
  | error fault => rfl
  | ok place =>
    simp only [Except.mapError]
    rw [result_bind, result_store]
    have hfiles : (around.amid scene).files = scene.files := rfl
    rw [hfiles]
    cases scene.files.checkWritable place.1 place.2 with
    | error cause => rfl
    | ok _ =>
      simp only
      cases refuses ⟨place.1.child place.2, content⟩ <;> rfl

/-- Writing a file and then printing realizes an effect that does both. -/
theorem realizes_writeFile_bind (path : String) (content : ByteArray) (message : String)
    (fields : Writing → List (String × String)) {y : Acting Unit} {text : String}
    (h : Prints y text) :
    Realizes refuses around
      (writeFile refuses around path content >>= fun w =>
        report around .info message (fields w) >>= fun _ => y)
      fun here => orFault .file (here.writing path content) >>= fun w =>
        here.report .info message (fields w) >>= fun _ =>
          pure { printed := text, written := some w } := by
  intro scene
  rw [result_bind, result_writeFile, Performing.result_bind, Performing.result_orFault]
  cases (around.amid scene).writing path content with
  | error fault => exact .failed (.file fault) scene.log
  | ok w =>
    have heffect : Performing.result
        ((around.amid scene).report .info message (fields w) >>= fun _ =>
          (pure { printed := text, written := some w } : Performing Effect)) scene.log =
        (.ok { printed := text, written := some w },
          scene.log ++ Log.one around.least .info message (fields w)) := rfl
    simp only [Except.mapError]
    rw [heffect]
    cases hrefused : refuses w with
    -- The message is not told yet, so the log is shorter than that of the effect.
    | some cause => exact .refused rfl hrefused _ scene.log
    | none =>
      have hreport (mid : Scene) : result (report around .info message (fields w)) mid =
          (.ok (), { mid with log := mid.log ++ Log.one around.least .info message (fields w) }) :=
        rfl
      simp only
      rw [result_bind, hreport]
      simp only
      rw [h]
      exact .done (by simpa using hrefused) _

/-! ### The commands -/

theorem numbered_eq (first : Nat) (ids : List String) :
    Report.numbered first ids =
      (ids.zipIdx first).map fun p => s!"  {Report.threePlaces p.2}. {p.1}" := by
  induction ids generalizing first with
  | nil => rfl
  | cons id rest ih => rw [Report.numbered, ih, List.zipIdx_cons, List.map_cons]

theorem realizes_verify (s : Settings) (json : Bool) (path : String) :
    Realizes refuses around (verify around s json path) (·.verify s json path) := by
  refine realizes_consult_bind fun loaded => ?_
  cases json with
  | true => exact (prints_print _).realizes
  | false =>
    have hlines := prints_forM (fun p : String × Nat => s!"  {Report.threePlaces p.2}. {p.1}")
      (loaded.catalog.ids.zipIdx 1)
    rw [← numbered_eq] at hlines
    refine Prints.realizes (.cons (.cons (.cons (.cons (.cons (.cons (.cons ?_ _) _) _) _) _) _) _)
    exact hlines

theorem realizes_giveChecksum (s : Settings) (path : String) (output : Option String) :
    Realizes refuses around (giveChecksum refuses around s path output)
      (·.giveChecksum s path output) := by
  refine realizes_consult_bind fun place => realizes_consult_bind fun source =>
    realizes_consult_bind fun sealedText => ?_
  cases output with
  | none => exact (prints_printLine sealedText).realizes
  | some path =>
    simp only [ofLines_single]
    exact realizes_writeFile_bind path _ "seed sealed" (fun w => [("output", w.place.text)])
      prints_pure

theorem realizes_step (s : Settings) (json : Bool) (path argument : String) :
    Realizes refuses around (step around s json path argument) (·.step s json path argument) := by
  refine realizes_consult_bind fun loaded => realizes_consult_bind fun v =>
    realizes_consult_bind fun outcome => realizes_consult_bind fun _ => ?_
  cases json with
  | true => exact (prints_print _).realizes
  | false =>
    cases outcome with
    | reduced id next after => exact Prints.realizes (.cons (prints_printLine _) _)
    | stalled reason => exact Prints.realizes (.cons (prints_printLine _) _)
    | exhausted resource id => exact Prints.realizes (.cons (prints_printLine _) _)

theorem prints_evidence (known : Array Evidence) :
    Prints
      (if known.isEmpty then printLine "Evidence:       none"
      else do
        printLine "Evidence:"
        known.toList.forM fun e => printLine s!"  {e.pattern} at {e.value.hex} ({e.reason})")
      (Report.ofLines (Report.evidenceLines known.toList)) := by
  rw [← Array.isEmpty_toList]
  cases known.toList with
  | nil => exact prints_printLine _
  | cons e rest => exact .cons (prints_forM _ (e :: rest)) _

theorem prints_printRun (json : Bool) (halt : Halt) (e : Execution) :
    Prints (printRun json halt e)
      (if json then Report.runJson halt e else Report.runLines halt e) := by
  cases json with
  | true => exact prints_print _
  | false =>
    have hevidence := prints_evidence e.evidence
    refine .cons (.cons (.cons (.cons (.cons ?_ _) _) _) _) _
    cases e.dropped with
    | zero => exact hevidence
    | succ n => exact .cons hevidence _

/-- A message that is there only on a condition comes before the rest in both. -/
theorem realizes_ite_report {p : Prop} [Decidable p] {level : Severity} {message : String}
    {fields : List (String × String)} {y : Acting Unit} {f : Surroundings → Performing Effect}
    (h : Realizes refuses around y f) :
    Realizes refuses around
      (if p then report around level message fields >>= fun _ => y else y)
      fun here => if p then here.report level message fields >>= fun _ => f here else f here := by
  by_cases hp : p
  · simp only [if_pos hp]
    exact realizes_consult_bind fun _ => h
  · simp only [if_neg hp]
    exact h

theorem realizes_writeTrace_bind {trace : Trace} {format : TraceFormat} {traceOut : Option String}
    {y : Acting Unit} {text : String} (h : Prints y text) :
    Realizes refuses around (writeTrace refuses around trace format traceOut >>= fun _ => y)
      fun here =>
        match traceOut with
        | none => pure { printed := text }
        | some path => do
          let content := Surroundings.traceBytes trace format
          let w ← orFault .file (here.writing path content)
          here.report .info "trace written"
            [("output", w.place.text), ("bytes", toString content.size)]
          return { printed := text, written := some w } := by
  cases traceOut with
  | none => exact h.realizes
  | some path =>
    let content := Surroundings.traceBytes trace format
    let fields := fun w : Writing =>
      [("output", w.place.text), ("bytes", toString content.size)]
    show Realizes refuses around
      ((writeFile refuses around path content >>= fun w =>
        report around .info "trace written" (fields w)) >>= fun _ => y) _
    rw [bind_assoc]
    exact realizes_writeFile_bind path content "trace written" fields h

theorem realizes_run (s : Settings) (json : Bool) (path argument : String)
    (maxSteps : Option Nat) (traceOut : Option String) (format : TraceFormat) :
    Realizes refuses around (run refuses around s json path argument maxSteps traceOut format)
      (·.run s json path argument maxSteps traceOut format) := by
  refine realizes_consult_bind fun loaded => realizes_consult_bind fun v =>
    realizes_consult_bind fun start => ?_
  -- Both sides go on from one run, whatever it came to.
  generalize start.run (Surroundings.budget s maxSteps) = ran
  obtain ⟨halted, e⟩ := ran
  refine realizes_consult_bind fun halt => realizes_consult_bind fun _ => ?_
  exact realizes_ite_report (realizes_writeTrace_bind (prints_printRun json halt e))

theorem prints_printShape (json : Bool) (v : Value) (linked : Option Value) :
    Prints (printShape json v linked)
      (if json then Report.shapeJson v.shape linked else Report.shapeLines v.shape linked) := by
  cases json with
  | true => exact prints_print _
  | false =>
    cases linked with
    | some u => exact .cons (prints_printLine _) _
    | none => exact .cons prints_pure _

theorem realizes_classify (s : Settings) (json : Bool) (argument : String) (normalize : Bool) :
    Realizes refuses around (classify around s json argument normalize)
      (·.classify s json argument normalize) := by
  refine realizes_consult_bind fun v => ?_
  cases normalize with
  | true => exact realizes_consult_bind fun linked => (prints_printShape json v linked).realizes
  | false =>
    exact realizes_consult_bind (x := fun _ => pure none) fun linked =>
      (prints_printShape json v linked).realizes

theorem realizes_digest (s : Settings) (json : Bool) (argument : String) :
    Realizes refuses around (digest around s json argument) (·.digest s json argument) := by
  refine realizes_consult_bind fun v => ?_
  cases json with
  | true => exact (prints_print _).realizes
  | false => exact (prints_printLine _).realizes

/-- A command in place comes to the effect of the command. -/
theorem realizes_command (s : Settings) (json : Bool) (c : Command) :
    Realizes refuses around (command refuses around s json c) (·.command s json c) := by
  cases c with
  | verify path => exact realizes_verify s json path
  | «sealed» path output => exact realizes_giveChecksum s path output
  | step path argument => exact realizes_step s json path argument
  | run path argument maxSteps traceOut format =>
    exact realizes_run s json path argument maxSteps traceOut format
  | classify argument normalize => exact realizes_classify s json argument normalize
  | digest argument => exact realizes_digest s json argument

/-- An invocation in place comes to what the invocation does. -/
theorem realizes_invocation (i : Invocation) :
    Realizes refuses around (invocation refuses around i)
      fun here => here.settings i.config >>= fun s => here.command s i.json i.command :=
  realizes_consult_bind fun s => realizes_command s i.json i.command

end Realizes

/-- Where the system refuses no writing, an invocation in place prints and writes what the
invocation does, and it keeps the same log. -/
theorem performOn_eq_invocation (i : Invocation) (around : Surroundings) :
    let done := result (invocation (fun _ => none) around i) ⟨around.files, "", []⟩
    i.performOn around = (done.1.map fun _ => done.2.printed, done.2.files) ∧
      (i.perform around).2 = done.2.log := by
  intro done
  have h : CarriedOut (fun _ => none) ⟨around.files, "", []⟩ (i.perform around) done :=
    realizes_invocation i ⟨around.files, "", []⟩
  unfold Invocation.performOn
  generalize i.perform around = x at h ⊢
  generalize done = y at h ⊢
  cases h with
  | failed fault log => exact ⟨rfl, rfl⟩
  | @done effect hwritten log =>
    refine ⟨?_, rfl⟩
    show (Except.ok effect.printed, _) = (Except.ok ("" ++ effect.printed), _)
    rw [String.empty_append]
  | refused hwritten hrefused log early => simp at hrefused

end Acting

end TreeReduction
