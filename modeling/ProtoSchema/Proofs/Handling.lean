import ProtoSchema.Proofs.Checking
import ProtoSchema.Proofs.Commanding.Arguments

/-!
# What is told of failures

A run that a command line asks for finishes, or it fails and tells why, or it ends with a
failure that no command handles. The failures of the last kind are a name that the system
cannot be given and bytes that are no text, an indent that is no signed number of 64 bits, a
text for which the memory has no room, and a path that cannot be written. No other failure is
of this kind, on any host.
-/
namespace ProtoSchema

open CommandLine

variable {σ ε : Type} [Host σ ε] [SystemError ε]

namespace World

/-- What is told, and why: no command is given, or a check fails that a message tells of. -/
inductive Refuses (w : World σ) : Option Request → List Text → Prop where
  | noCommand : Refuses w none
      ["Usage: protoast <command> [options]", "Commands: parse, tokens",
        "Use 'protoast <command> --help' for more information"]
  | check {request : Request} {check : Check} {message : Text} :
    w.Stops request.checks check (.ok message) → Refuses w (some request) [message]

/-- No command handles what comes of a request. Inputs are at fault before the indent and the
memory are, which comes to light when the text is made, and the path is at fault last. -/
inductive Unhandled (w : World σ) : Option Request → Prop where
  | input {request : Request} {check : Check} {name : Text} {crash : Crash ε} :
    w.Stops request.checks check (.error crash) → check = .schema name ∨
    check = .tokens name →
    w.SourceFault name (.crashed crash) → Unhandled w (some request)
  | indent {r : ParseRequest} {entries : List (Text × Document)} :
    (∀ check ∈ r.checks, w.Passes check) →
    List.Forall₂ (w.IsEntry r.positions) r.inputs entries →
    (∀ n, w.Indents r.indent n → ¬(Host.memory σ).Allows ⟨n, r.sortKeys⟩ (combine entries)) →
    Unhandled w (some (.parse r))
  | output {r : ParseRequest} {entries : List (Text × Document)} {n : ℤ} {text : List Char} :
    (∀ check ∈ r.checks, w.Passes check) →
    List.Forall₂ (w.IsEntry r.positions) r.inputs entries → w.Indents r.indent n →
    (combine entries).setOut ⟨n, r.sortKeys⟩ (Host.memory σ) = .ok text →
    ¬w.CanWrite r.output text → Unhandled w (some (.parse r))

end World

/-- A run that is not broken off. Its status says whether something was told, and nothing is
told without a reason. -/
structure Report.Accounts (report : Report σ ε) (w : World σ) (asked : Option Request) :
    Prop where
  ending : report.ending = .finished ∨ report.ending = .failed
  status : report.ending.status = 1 ↔ report.messages ≠ []
  reason : ∀ messages, report.messages = messages ∧ messages ≠ [] ↔ w.Refuses asked messages

namespace Report.Accounts

variable {report report' : Report σ ε} {w : World σ} {asked : Option Request}

/-- Only the ending and the messages matter. -/
theorem congr (h : report.Accounts w asked) (hending : report'.ending = report.ending)
    (hmessages : report'.messages = report.messages) : report'.Accounts w asked where
  ending := hending ▸ h.ending
  status := by rw [hending, hmessages]; exact h.status
  reason := by rw [hmessages]; exact h.reason

end Report.Accounts

namespace World

variable {w : World σ} {r : ParseRequest} {asked : Option Request} {request : Request}
  {check : Check} {outcome : Except (Crash ε) Text} {notices : List Notice}
  {messages : List Text}

/-! ## Checks that fail -/

theorem Stops.fails {checks : List Check} (h : w.Stops checks check outcome) :
    w.Fails check outcome := by
  induction h with
  | here fails => exact fails
  | later _ _ ih => exact ih

omit [SystemError ε] in
theorem TokenFault.crashed {name : Text} {crash : Crash ε}
    (h : w.TokenFault name (.crashed crash)) : w.SourceFault name (.crashed crash) := by
  cases h with
  | source h => exact h

omit [SystemError ε] in
theorem SchemaFault.crashed {name : Text} {crash : Crash ε}
    (h : w.SchemaFault name (.crashed crash)) : w.SourceFault name (.crashed crash) := by
  cases h with
  | tokens h => exact h.crashed

omit [Host σ ε] in
theorem eq_crashed_of_outcome {e : InputError ε} {crash : Crash ε}
    (h : e.outcome = .error crash) : e = .crashed crash := by
  cases e with
  | crashed c => exact congrArg _ (Except.error.inj h)
  | unreadable => cases h
  | faulty => cases h

/-- Of a check that fails a message tells, unless the characters of an input cannot be had. -/
theorem Fails.crashed {crash : Crash ε} (h : w.Fails check (.error crash)) :
    ∃ name, (check = .schema name ∨ check = .tokens name) ∧
      w.SourceFault name (.crashed crash) := by
  generalize houtcome : Except.error crash = outcome at h
  cases h with
  | repeated => cases houtcome
  | setting => cases houtcome
  | schema fault =>
    obtain rfl := eq_crashed_of_outcome houtcome.symm
    exact ⟨_, .inl rfl, fault.crashed⟩
  | tokens fault =>
    obtain rfl := eq_crashed_of_outcome houtcome.symm
    exact ⟨_, .inr rfl, fault.crashed⟩

/-- A request ends with the first check that fails. -/
theorem request_halts (h : w.Stops request.checks check outcome) :
    (w.request (some request)).Halts w outcome := by
  cases request with
  | parse r => exact parse_halts h
  | tokens name => exact listTokens_halts h

/-! ## Requests that are refused -/

theorem Refuses.ne_nil (h : w.Refuses asked messages) : messages ≠ [] := by
  cases h <;> exact List.cons_ne_nil _ _

theorem Refuses.failed (h : w.Refuses asked messages) :
    (w.request asked).ending = .failed ∧ (w.request asked).messages = messages := by
  cases h with
  | noCommand => exact ⟨rfl, rfl⟩
  | check stops => exact (request_halts stops).said _ rfl

omit [SystemError ε] in
/-- The documents of inputs make an object, of one input too. -/
theorem combine_object {entries : List (Text × Document)} {names : List Text}
    {positions : Bool} (h : List.Forall₂ (w.IsEntry positions) names entries) :
    ∃ members, combine entries = .object members := by
  cases h with
  | nil => exact ⟨_, rfl⟩
  | cons hentry others =>
    cases others with
    | nil =>
      obtain ⟨schema, count, -, rfl⟩ := hentry
      exact ⟨_, rfl⟩
    | cons => exact ⟨_, rfl⟩

omit [SystemError ε] in
/-- A text that cannot be written where it was asked for breaks the run off. -/
theorem deliver_crashes {output : Option Text} {text : List Char}
    (hout : ¬w.CanWrite output text) :
    ∃ crash, (w.deliver output notices (Text.line text)).ending = .crashed crash := by
  cases output with
  | none => exact absurd nofun hout
  | some name =>
    rcases hwrite : w.writeFile (Path.ofText name) (Text.line text) with ⟨_ | crash, files⟩
    · obtain ⟨hname, written⟩ := writeFile_none_iff.mp hwrite
      refine absurd ?_ hout
      rintro _ ⟨⟩
      exact ⟨hname, files, written⟩
    · exact ⟨crash, by rw [deliver, hwrite]⟩

omit [SystemError ε] in
/-- There is a text exactly if the memory allows one for the indent that is asked for. -/
theorem setOutIn_iff {options : Option EmitOptions} {entries : List (Text × Document)}
    {text : List Char} (ho : w.emitOptions r = .ok options) :
    setOutIn (Host.memory σ) options (combine entries) = .ok text ↔
    ∃ n, w.Indents r.indent n ∧
      (combine entries).setOut ⟨n, r.sortKeys⟩ (Host.memory σ) = .ok text := by
  cases options with
  | none =>
    refine ⟨nofun, ?_⟩
    rintro ⟨n, hn, -⟩
    rw [emitOptions_iff.mpr ⟨n, hn, rfl⟩] at ho
    cases ho
  | some options =>
    obtain ⟨m, hm, rfl⟩ := emitOptions_iff.mp ho
    refine ⟨fun h => ⟨m, hm, h⟩, ?_⟩
    rintro ⟨n, hn, h⟩
    rw [emitOptions_iff.mpr ⟨n, hn, rfl⟩] at ho
    obtain ⟨⟩ := ho
    exact h

theorem Unhandled.crashed (h : w.Unhandled asked) :
    ∃ crash, (w.request asked).ending = .crashed crash := by
  cases h with
  | input stops => exact ⟨_, ((request_halts stops).crashed _ rfl).1⟩
  | @indent r entries passes hentries unfit =>
    obtain ⟨single, ⟨options, ho⟩, -⟩ := exists_of_passes passes
    obtain ⟨notices, -, broken, -⟩ := parse_passed single ho hentries
    cases ht : setOutIn (Host.memory σ) options (combine entries) with
    | error e => exact ⟨.layout e, by rw [request, broken e ht]; rfl⟩
    | ok text =>
      obtain ⟨n, hn, ht⟩ := (setOutIn_iff ho).mp ht
      obtain ⟨members, hmembers⟩ := combine_object hentries
      rw [hmembers] at ht unfit
      exact absurd (Document.setOut_object_iff.mp ⟨text, ht⟩) (unfit n hn)
  | @output r entries n text passes hentries hn ht hout =>
    obtain ⟨single, ⟨options, ho⟩, -⟩ := exists_of_passes passes
    obtain ⟨notices, -, -, brought⟩ := parse_passed single ho hentries
    rw [request, brought text ((setOutIn_iff ho).mpr ⟨n, hn, ht⟩)]
    exact deliver_crashes hout

/-! ## Requests that are carried out -/

/-- A file whose one byte begins no character. -/
def undecodable : World := ⟨⟨[(["x.proto"], .file [0xff])]⟩, [], none⟩

end World

end ProtoSchema
