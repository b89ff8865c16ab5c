import ProtoSchema.Command
import ProtoSchema.Proofs.Commanding.FileSystem
import ProtoSchema.Proofs.Document.Schema
import ProtoSchema.Proofs.Json.Reading
import ProtoSchema.Proofs.Outcome

/-!
# What the parse command writes

A run that finishes has set out the documents of its inputs and brought the text to where it
was asked for. On any host the files are then as they are after the text was written; among
files and directories alone the text is read back, and whether it can be brought there does
not depend on it.
-/
namespace ProtoSchema

open CommandLine

variable {σ ε : Type} [Host σ ε]

/-- The files after bytes were written to a path, with the directories on the way to it. -/
def Host.Writes (files : σ) (p : Path) (bytes : List UInt8) (after : σ) : Prop :=
  ∃ made, Host.ensureDirectories files p.parent = (none, made) ∧
    Host.write made p bytes = (none, after)

/-- The line that a text is written as. -/
def Text.line (text : List Char) : Text := Text.ofChars text ++ [.char '\n']

/-- Lines of the same bytes are of the same text. -/
theorem Text.encode_line_injective : Function.Injective fun text =>
      Utf8.encode (Text.line text) := by
  intro text text' h
  have line (cs : List Char) : Text.line cs = Text.ofChars (cs ++ ['\n']) := by
    simp [Text.line, Text.ofChars]
  simp only [line] at h
  exact List.append_cancel_right (Utf8.encode_ofChars_inj h)

theorem Text.line_injective : Function.Injective Text.line :=
  Text.encode_line_injective.of_comp

theorem Path.isNameable_parent {p : Path} (h : p.isNameable = true) :
    p.parent.isNameable = true := by
  rw [Path.isNameable, List.all_eq_true] at h ⊢
  exact fun name hname => h name (List.mem_of_mem_dropLast hname)

namespace World

variable {w : World σ} {r : ParseRequest} {p : Path} {text text' : List Char}
  {notices : List Notice} {names : List Text} {positions : Bool}
  {entries : List (Text × Document)} {output : Option Text}

/-! ## Bringing a text where it was asked for -/

/-- Nothing goes wrong with a file if its path can be given to the host and the host writes
it. -/
theorem writeFile_none_iff {t : Text} {after : σ} : w.writeFile p t = (none, after) ↔
    p.isNameable = true ∧ Host.Writes w.files p (Utf8.encode t) after := by
  cases hname : p.isNameable with
  | false =>
    constructor
    · intro h
      unfold writeFile at h
      split at h
      · cases h
      split at h
      · cases h
      · simp [hname] at h
    · rintro ⟨⟨⟩, -⟩
  | true =>
    rcases hdirs : Host.ensureDirectories w.files p.parent with ⟨_ | e, made⟩
    · simp [writeFile, Host.Writes, hdirs, hname, Path.isNameable_parent hname, Prod.ext_iff]
    · simp [writeFile, Host.Writes, hdirs, Path.isNameable_parent hname]

/-- The text can be written where it is asked for. -/
def CanWrite (w : World σ) (output : Option Text) (text : List Char) : Prop :=
  ∀ name ∈ output, (Path.ofText name).isNameable = true ∧
    ∃ after, Host.Writes w.files (Path.ofText name) (Utf8.encode (Text.line text)) after

/-! ## Documents of inputs -/

/-- The entry of an input that is read and parsed. -/
def IsEntry (w : World σ) (positions : Bool) (name : Text) (entry : Text × Document) : Prop :=
  ∃ schema count, w.schemaOf name = .ok (schema, count) ∧
    entry = (displayName name, schema.toDocument positions)

theorem documentsOf_iff :
    (∃ notices, w.documentsOf positions names = (.ok entries, notices)) ↔
    List.Forall₂ (w.IsEntry positions) names entries := by
  induction names generalizing entries with
  | nil =>
    rw [List.forall₂_nil_left_iff]
    simp [documentsOf, eq_comm]
  | cons name names ih =>
    rw [List.forall₂_cons_left_iff]
    cases hschema : w.schemaOf name with
    | error e =>
      simp [documentsOf, hschema, IsEntry]
    | ok parsed =>
      obtain ⟨schema, count⟩ := parsed
      rcases hothers : w.documentsOf positions names with ⟨_ | others, notices⟩
      · have none (others : List (Text × Document)) :
            ¬List.Forall₂ (w.IsEntry positions) names others := by
          rw [← ih, hothers]
          simp
        simp [documentsOf, hschema, hothers, none, Except.map]
      · have these (others' : List (Text × Document)) :
            List.Forall₂ (w.IsEntry positions) names others' ↔ others' = others := by
          rw [← ih, hothers]
          simp [eq_comm]
        simp [documentsOf, hschema, hothers, these, Except.map, IsEntry, eq_comm]

/-- Inputs that are read and parsed have entries. -/
theorem exists_entries (h : ∀ name ∈ names, ∃ parsed, w.schemaOf name = .ok parsed) :
    ∃ entries, List.Forall₂ (w.IsEntry positions) names entries := by
  induction names with
  | nil => exact ⟨[], .nil⟩
  | cons name names ih =>
    obtain ⟨⟨⟨schema, count⟩, hschema⟩, hnames⟩ := List.forall_mem_cons.mp h
    obtain ⟨entries, hentries⟩ := ih hnames
    exact ⟨_, .cons ⟨schema, count, hschema, rfl⟩ hentries⟩

/-! ## Runs that finish -/

theorem repeatedNames_eq_nil (h : names.Nodup) : repeatedNames names = [] := by
  have single : (names.filter fun name => 1 < names.count name) = [] := by
    rw [List.filter_eq_nil_iff]
    intro name _
    simpa using List.nodup_iff_count_le_one.mp h name
  rw [repeatedNames, single, List.eraseDups_nil, List.mergeSort_nil]

variable [SystemError ε]

/-- The documents of the inputs are set out, and the text is brought to where it was asked
for. -/
theorem parse_eq {options : EmitOptions} (hr : r.inputs.Nodup)
    (ho : w.emitOptions r = .ok (some options))
    (hentries : List.Forall₂ (w.IsEntry r.positions) r.inputs entries)
    (ht : (combine entries).setOut options.style (Host.memory σ) = .ok text) :
    ∃ notices, w.parse r = w.deliver r.output notices (Text.line text) := by
  obtain ⟨notices, hd⟩ := documentsOf_iff.mpr hentries
  refine ⟨notices, ?_⟩
  simp only [parse, repeatedNames_eq_nil hr, ho, hd, setOutIn, ht, Text.line]

/-- Only in this way does a run finish. -/
theorem exists_of_finished (h : (w.parse r).ending = .finished) :
    ∃ options entries text, w.emitOptions r = .ok (some options) ∧
      List.Forall₂ (w.IsEntry r.positions) r.inputs entries ∧
      (combine entries).setOut options.style (Host.memory σ) = .ok text := by
  cases hrepeated : repeatedNames r.inputs with
  | cons _ _ =>
    simp only [parse, hrepeated] at h
    cases h
  | nil =>
    cases ho : w.emitOptions r with
    | error e =>
      simp only [parse, hrepeated, ho] at h
      cases h
    | ok options =>
      rcases hd : w.documentsOf r.positions r.inputs with ⟨e | entries, notices⟩
      · simp only [parse, hrepeated, ho, hd, rejectInput] at h
        split at h <;> cases h
      · cases ht : setOutIn (Host.memory σ) options (combine entries) with
        | error e =>
          simp only [parse, hrepeated, ho, hd, ht] at h
          cases h
        | ok text =>
          cases options with
          | none => cases ht
          | some options =>
            exact ⟨options, entries, text, rfl, documentsOf_iff.mp ⟨notices, hd⟩, ht⟩

theorem sortKeys_emitOptions {options : EmitOptions}
    (h : w.emitOptions r = .ok (some options)) : options.style.sortKeys = r.sortKeys := by
  unfold emitOptions EmitOptions.resolve at h
  split at h
  · cases hindent : defaultIndent w.indentSetting with
    | error e => simp [hindent, Except.map] at h
    | ok n =>
      simp only [hindent, Except.map, Except.ok.injEq, Option.some.injEq] at h
      rw [← h]
  · simp only [Except.map, Except.ok.injEq, Option.some.injEq] at h
    rw [← h]
  · cases h

end World

/-! ## Among files and directories alone -/

/-- A run has brought a text, with a newline behind it, to where it was asked for. -/
def Report.Brings (report : Report) (output : Option Text) (text : List Char) : Prop :=
  report.ending = .finished ∧ match output with
    | none => report.output = Text.line text
    | some name => report.files.read (Path.ofText name) = .ok (Utf8.encode (Text.line text))

namespace FileSystem

variable {files after : FileSystem} {p : Path} {bytes : List UInt8}

/-- What was written is read back. -/
theorem read_of_writes (h : Host.Writes files p bytes after) : after.read p = .ok bytes := by
  obtain ⟨made, -, hwrite⟩ := h
  exact read_write (host_write_iff.mp hwrite)

/-- Whether bytes can be written does not depend on them. -/
theorem exists_writes (h : Host.Writes files p bytes after) (bytes' : List UInt8) :
    ∃ after', Host.Writes files p bytes' after' := by
  obtain ⟨made, hdirs, hwrite⟩ := h
  cases hwrite' : made.write p bytes' with
  | ok after' => exact ⟨after', made, hdirs, host_write_iff.mpr hwrite'⟩
  | error e =>
    have refused := write_error bytes' bytes hwrite'
    rw [host_write_iff.mp hwrite] at refused
    cases refused

end FileSystem

namespace World

variable {w : World} {text text' : List Char} {notices : List Notice} {output : Option Text}

/-- Where one text can be written, any other can. -/
theorem CanWrite.congr (h : w.CanWrite output text) (text' : List Char) :
    w.CanWrite output text' := fun name hname =>
  ⟨(h name hname).1, (h name hname).2.elim fun _ written =>
    FileSystem.exists_writes written _⟩

/-- A text is brought to where it was asked for, if anything can be written there, and no
other is. -/
theorem brings_deliver_iff : (w.deliver output notices (Text.line text)).Brings output text' ↔
    text' = text ∧ w.CanWrite output text := by
  cases output with
  | none =>
    refine ⟨fun h => ⟨(Text.line_injective h.2).symm, nofun⟩, ?_⟩
    rintro ⟨rfl, -⟩
    exact ⟨rfl, rfl⟩
  | some name =>
    rcases hwrite : w.writeFile (Path.ofText name) (Text.line text) with ⟨_ | crash, files⟩
    · obtain ⟨hname, written⟩ := writeFile_none_iff.mp hwrite
      have able : w.CanWrite (some name) text := by
        rintro _ ⟨⟩
        exact ⟨hname, files, written⟩
      have found : files.read (Path.ofText name) = .ok (Utf8.encode (Text.line text)) :=
        FileSystem.read_of_writes written
      rw [Report.Brings, deliver, hwrite]
      simp only [found, Except.ok.injEq, able, and_true, true_and]
      exact ⟨fun h => (Text.encode_line_injective h).symm, fun h => by rw [h]⟩
    · have failed : (w.deliver (some name) notices (Text.line text)).ending =
          .crashed crash := by
        rw [deliver, hwrite]
      constructor
      · intro h
        rw [h.1] at failed
        cases failed
      · intro h
        obtain ⟨hname, after, written⟩ := h.2 name rfl
        rw [writeFile_none_iff.mpr ⟨hname, written⟩] at hwrite
        cases hwrite

end World

end ProtoSchema
