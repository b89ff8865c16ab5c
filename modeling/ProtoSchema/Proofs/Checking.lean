import ProtoSchema.Proofs.Commanding.Check
import ProtoSchema.Proofs.Gathering

/-!
# All or nothing

The parse command writes the documents of all its inputs, or it writes nothing and changes no
file: a run ends with the first check that fails, and only if none fails a text is made and
brought to where it was asked for. This holds on every host, whatever it refuses and for
whatever reason.
-/
namespace ProtoSchema

open CommandLine

variable {σ ε : Type}

/-- The line, if it is a message and not logged. -/
def Notice.message? : Notice → Option Text
  | .message t => some t
  | .logged .. => none

@[simp] theorem Notice.message?_message (t : Text) :
    (Notice.message t).message? = some t := rfl

@[simp] theorem Notice.message?_logged (level : LogLevel) (t : Text) :
    (Notice.logged level t).message? = none := rfl

namespace Report

/-- The messages to the person. -/
def messages (report : Report σ ε) : List Text := report.notices.filterMap Notice.message?

/-- The run has ended and nothing has been written: one message says why, or no command
handles it. -/
structure Halts (report : Report σ ε) (w : World σ) (outcome : Except (Crash ε) Text) :
    Prop where
  output : report.output = []
  files : report.files = w.files
  said : ∀ message, outcome = .ok message → report.ending = .failed ∧
    report.messages = [message]
  crashed : ∀ crash, outcome = .error crash →
    report.ending = .crashed crash ∧ report.messages = []

variable [Host σ ε]

end Report

namespace World

variable [Host σ ε] {w : World σ} {r : ParseRequest} {check : Check}
  {outcome : Except (Crash ε) Text} {notices : List Notice} {names : List Text}

/-! ## Runs that end with a check -/

omit [Host σ ε] in
theorem complain_halts (h : notices.filterMap Notice.message? = []) (message : Text) :
    (w.complain (ε := ε) notices message).Halts w (.ok message) where
  output := rfl
  files := rfl
  said := by
    rintro _ ⟨⟩
    refine ⟨rfl, ?_⟩
    simp [Report.messages, complain, stop, h]
  crashed := by rintro _ ⟨⟩

omit [Host σ ε] in
theorem rejectInput_halts [SystemError ε] (h : notices.filterMap Notice.message? = [])
    (e : InputError ε) : (w.rejectInput notices e).Halts w e.outcome := by
  unfold rejectInput
  split
  · next message heq =>
    rw [heq]
    exact complain_halts h message
  · next crash heq =>
    rw [heq]
    refine ⟨rfl, rfl, nofun, ?_⟩
    rintro _ ⟨⟩
    exact ⟨rfl, h⟩

/-- Of inputs only a line is logged each. -/
theorem documentsOf_messages (w : World σ) (positions : Bool) (names : List Text) :
    (w.documentsOf positions names).2.filterMap Notice.message? = [] := by
  induction names with
  | nil => rfl
  | cons name names ih =>
    cases hschema : w.schemaOf name with
    | error e => simp [documentsOf, hschema]
    | ok parsed =>
      obtain ⟨schema, count⟩ := parsed
      simpa only [documentsOf, hschema, parsedNotice, List.filterMap_cons,
        Notice.message?_logged] using ih

variable [SystemError ε]

/-- Inputs are read up to the first that gives no schema. -/
theorem documentsOf_stops (positions : Bool) (h : w.Stops (names.map .schema) check outcome) :
    ∃ e, (w.documentsOf positions names).1 = .error e ∧ e.outcome = outcome := by
  induction names with
  | nil => cases h
  | cons name names ih =>
    cases h with
    | here fails =>
      cases fails with
      | @schema _ e fault => exact ⟨e, by simp [documentsOf, fault.schemaOf_eq], rfl⟩
    | later passes stops =>
      obtain ⟨⟨schema, count⟩, hschema⟩ := passes_schema_iff.mp passes
      obtain ⟨e, he, houtcome⟩ := ih stops
      exact ⟨e, by simp [documentsOf, hschema, he, Except.map], houtcome⟩

/-- A run to parse ends with the first check that fails. -/
theorem parse_halts (h : w.Stops r.checks check outcome) : (w.parse r).Halts w outcome := by
  cases h with
  | here fails =>
    cases fails with
    | repeated hne hmem sorted =>
      obtain ⟨name, names, hrepeated⟩ := List.exists_cons_of_ne_nil hne
      have found := repeatedNames_eq hmem sorted
      rw [hrepeated] at found ⊢
      simp only [parse, found]
      exact complain_halts rfl _
  | later distinct stops =>
    have single := passes_distinct_iff.mp distinct
    cases stops with
    | here fails =>
      obtain ⟨e, ho, rfl⟩ := fails_indent_iff.mp fails
      simp only [parse, single, ho]
      exact complain_halts rfl _
    | later indent stops =>
      obtain ⟨options, ho⟩ := passes_indent_iff.mp indent
      obtain ⟨e, he, rfl⟩ := documentsOf_stops r.positions stops
      have quiet := documentsOf_messages w r.positions r.inputs
      rcases hd : w.documentsOf r.positions r.inputs with ⟨d, notices⟩
      rw [hd] at he quiet
      obtain rfl : d = .error e := he
      simp only [parse, single, ho, hd]
      exact rejectInput_halts quiet e

/-- A run to list tokens ends with the only check if it fails. -/
theorem listTokens_halts {name : Text} (h : w.Stops [.tokens name] check outcome) :
    (w.listTokens name).Halts w outcome := by
  cases h with
  | here fails =>
    cases fails with
    | @tokens _ e fault =>
      rw [listTokens, fault.tokensOf_eq]
      exact rejectInput_halts rfl e
  | later _ stops => cases stops

/-! ## Runs that pass -/

/-- If no check fails there are options, and every input has an entry. -/
theorem exists_of_passes (h : ∀ check ∈ r.checks, w.Passes check) :
    repeatedNames r.inputs = [] ∧ (∃ options, w.emitOptions r = .ok options) ∧
      ∃ entries, List.Forall₂ (w.IsEntry r.positions) r.inputs entries := by
  obtain ⟨distinct, h⟩ := List.forall_mem_cons.mp h
  obtain ⟨indent, inputs⟩ := List.forall_mem_cons.mp h
  refine ⟨passes_distinct_iff.mp distinct, passes_indent_iff.mp indent,
    exists_entries fun name hname => ?_⟩
  exact passes_schema_iff.mp (inputs _ (List.mem_map_of_mem hname))

/-- If no check fails, what comes of the documents depends on whether they can be set out. -/
theorem parse_passed {options : Option EmitOptions} {entries : List (Text × Document)}
    (hsingle : repeatedNames r.inputs = []) (ho : w.emitOptions r = .ok options)
    (hentries : List.Forall₂ (w.IsEntry r.positions) r.inputs entries) :
    ∃ notices, notices.filterMap Notice.message? = [] ∧
      (∀ e, setOutIn (Host.memory σ) options (combine entries) = .error e →
        w.parse r = w.stop (.crashed (.layout e)) notices) ∧
      ∀ text, setOutIn (Host.memory σ) options (combine entries) = .ok text →
        w.parse r = w.deliver r.output notices (Text.line text) := by
  obtain ⟨notices, hd⟩ := documentsOf_iff.mpr hentries
  have quiet := documentsOf_messages w r.positions r.inputs
  rw [hd] at quiet
  refine ⟨notices, quiet, fun e he => ?_, fun text ht => ?_⟩
  · simp only [parse, hsingle, ho, hd, he]
  · simp only [parse, hsingle, ho, hd, ht, Text.line]

end World

end ProtoSchema
