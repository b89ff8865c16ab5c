import ProtoSchema.Proofs.Commanding.Parse
import ProtoSchema.Proofs.Document.Room
import ProtoSchema.Proofs.Emission
import ProtoSchema.Proofs.Walk

/-!
# Several inputs in one document

What the parse command writes for several inputs holds, for each of them, what it writes for
that input alone. Inputs are told apart by the names they are shown by, and the standard input
is shown by a name that a file may have. Files and directories are all that there is here: a
text that was written is read back, and what can be written does not depend on the text.
-/
namespace ProtoSchema

open CommandLine

/-! ## The names of inputs -/

/-- Names that are shown alike are equal, unless one of them is that of the standard input. -/
theorem displayName_eq {a b : Text} (h : displayName a = displayName b) :
    a = b ∨ a = standardInput ∧ b = "<stdin>" ∨ a = "<stdin>" ∧ b = standardInput := by
  unfold displayName at h
  split at h
  · next ha =>
    split at h
    · next hb => exact .inl (ha.trans hb.symm)
    · exact .inr (.inl ⟨ha, h.symm⟩)
  · split at h
    · next hb => exact .inr (.inr ⟨h, hb⟩)
    · exact .inl h

/-- The standard input and a file of the name it is shown by are not both given. -/
def Unmistakable (names : List Text) : Prop :=
  ¬(standardInput ∈ names ∧ Text.ofString "<stdin>" ∈ names)

instance (names : List Text) : Decidable (Unmistakable names) :=
  inferInstanceAs (Decidable (¬_))

theorem Unmistakable.nodup {names : List Text} (h : Unmistakable names)
    (hnames : names.Nodup) : (names.map displayName).Nodup := by
  refine hnames.map_on fun a ha b hb hab => ?_
  rcases displayName_eq hab with heq | ⟨rfl, rfl⟩ | ⟨rfl, rfl⟩
  · exact heq
  · exact absurd ⟨ha, hb⟩ h
  · exact absurd ⟨hb, ha⟩ h

/-! ## One document of several -/

/-- What a memory allows of an object it allows of every entry. -/
theorem Document.Memory.Allows.of_mem {size : ℕ} {style : Document.Style}
    {entries : List (Text × Document)} {e : Text × Document}
    (h : (Memory.ofSize size).Allows style (.object entries)) (he : e ∈ entries) :
    (Memory.ofSize size).Allows style e.2 :=
  ⟨h.low, h.high, Memory.fits_of_mem h.room he⟩

/-- The keys of the document of a schema are distinct. -/
theorem Schema.keyed (s : Schema) (positions : Bool) :
    (s.toDocument positions).Keyed (· ≠ ·) := by
  have ordered : (s.toDocument positions).Ordered := s.ordered
  refine ordered.mono fun a b hab => ?_
  rintro rfl
  exact Nat.lt_irrefl _ hab

namespace World

variable {w : World} {r : ParseRequest} {names : List Text} {positions : Bool}
  {entries : List (Text × Document)}

theorem keys_of_entries (h : List.Forall₂ (w.IsEntry positions) names entries) :
    entries.map Prod.fst = names.map displayName := by
  induction h with
  | nil => rfl
  | cons hentry _ ih =>
    obtain ⟨schema, count, -, rfl⟩ := hentry
    rw [List.map_cons, List.map_cons, ih]

theorem keyed_of_entries (h : List.Forall₂ (w.IsEntry positions) names entries) :
    ∀ e ∈ entries, e.2.Keyed (· ≠ ·) := by
  induction h with
  | nil => nofun
  | cons hentry _ ih =>
    obtain ⟨schema, count, -, rfl⟩ := hentry
    exact List.forall_mem_cons.mpr ⟨schema.keyed positions, ih⟩

/-- Inputs have no other entries. -/
theorem entries_unique {entries' : List (Text × Document)}
    (h : List.Forall₂ (w.IsEntry positions) names entries)
    (h' : List.Forall₂ (w.IsEntry positions) names entries') : entries = entries' := by
  obtain ⟨notices, hd⟩ := documentsOf_iff.mpr h
  obtain ⟨notices', hd'⟩ := documentsOf_iff.mpr h'
  rw [hd] at hd'
  exact Except.ok.inj (congrArg Prod.fst hd')

theorem combine_several (h : 2 ≤ entries.length) : combine entries = .ofPairs entries := by
  match entries, h with
  | _ :: _ :: _, _ => rfl

/-- The documents of several inputs are an object with an entry for each. -/
theorem combine_entries (h : List.Forall₂ (w.IsEntry positions) names entries)
    (hlength : 2 ≤ names.length) (hnames : names.Nodup) (hknown : Unmistakable names) :
    combine entries = .object entries ∧ (Document.object entries).Keyed (· ≠ ·) := by
  have keys : entries.Pairwise fun a b => a.1 ≠ b.1 := by
    have distinct := hknown.nodup hnames
    rwa [← keys_of_entries h, List.Nodup, List.pairwise_map] at distinct
  refine ⟨?_, .object keys (keyed_of_entries h)⟩
  rw [combine_several (h.length_eq ▸ hlength), Document.ofPairs_eq keys]

/-- What is written for one input, if its document can be set out and something can be
written. -/
theorem parse_alone {name : Text} {entry : Text × Document} {options : EmitOptions}
    {text written : List Char} (ho : w.emitOptions r = .ok (some options))
    (hentry : w.IsEntry r.positions name entry)
    (ht : entry.2.setOut options.style (Host.memory FileSystem) = .ok text)
    (hout : w.CanWrite r.output written) :
    (w.parse { r with inputs := [name] }).Brings r.output text := by
  obtain ⟨notices, hparse⟩ :=
    parse_eq (r := { r with inputs := [name] }) (List.nodup_singleton name) ho
      (.cons hentry .nil) ht
  rw [hparse]
  exact brings_deliver_iff.mpr ⟨rfl, hout.congr text⟩

/-- The parse command loses no input: what it writes for several inputs, without the sorting
of keys, is an object with one entry for each of them, in their order, which is read as what
it writes for that input alone. It writes something if the memory allows it and something can
be written. -/
theorem parse_keeps_inputs (hsort : r.sortKeys = false) (hlength : 2 ≤ r.inputs.length)
    (hinputs : r.inputs.Nodup) (hknown : Unmistakable r.inputs)
    (hread : ∀ name ∈ r.inputs, ∃ parsed, w.schemaOf name = .ok parsed) :
    (∃ entries, List.Forall₂ (w.IsEntry r.positions) r.inputs entries ∧
      ∀ options, w.emitOptions r = .ok (some options) →
        (Host.memory FileSystem).Allows options.style (.object entries) →
        ∀ written, w.CanWrite r.output written → ∃ text, (w.parse r).Brings r.output text) ∧
    ∀ text, (w.parse r).Brings r.output text → ∃ entries,
      Json.read? text = some (.object entries) ∧
      entries.map Prod.fst = r.inputs.map displayName ∧ (entries.map Prod.fst).Nodup ∧
      List.Forall₂ (fun name entry => ∃ alone,
        (w.parse { r with inputs := [name] }).Brings r.output alone ∧
        Json.read? alone = some entry.2) r.inputs entries := by
  constructor
  · obtain ⟨entries, hentries⟩ := exists_entries hread
    refine ⟨entries, hentries, fun options ho hallows written hout => ?_⟩
    rw [← (combine_entries hentries hlength hinputs hknown).1] at hallows
    obtain ⟨notices, hparse⟩ := parse_eq hinputs ho hentries (Document.setOut_eq hallows)
    exact ⟨_, hparse ▸ brings_deliver_iff.mpr ⟨rfl, hout.congr _⟩⟩
  · intro text hbrings
    obtain ⟨options, entries, text', ho, hentries, ht⟩ := exists_of_finished hbrings.1
    obtain ⟨notices, hparse⟩ := parse_eq hinputs ho hentries ht
    obtain ⟨rfl, hout⟩ := brings_deliver_iff.mp (hparse ▸ hbrings)
    obtain ⟨hobject, hkeyed⟩ := combine_entries hentries hlength hinputs hknown
    have unsorted : options.style.sortKeys = false := (sortKeys_emitOptions ho).trans hsort
    have reads {d : Document} (hd : d.Keyed (· ≠ ·)) :
        Json.read? (d.toJson options.style) = some d := by
      rw [Json.read?_toJson hd, unsorted]
      rfl
    rw [hobject] at ht
    have allows := Document.setOut_object_iff.mp ⟨_, ht⟩
    refine ⟨entries, ?_, keys_of_entries hentries, ?_, ?_⟩
    · rw [Document.eq_of_setOut ht, reads hkeyed]
    · rw [keys_of_entries hentries]
      exact hknown.nodup hinputs
    · have each {name : Text} {entry : Text × Document}
          (hentry : w.IsEntry r.positions name entry) (hmem : entry ∈ entries) : ∃ alone,
          (w.parse { r with inputs := [name] }).Brings r.output alone ∧
            Json.read? alone = some entry.2 := by
        obtain ⟨schema, count, -, hdocument⟩ := id hentry
        have ht' := Document.setOut_eq (allows.of_mem hmem)
        refine ⟨_, parse_alone ho hentry ht' hout, reads ?_⟩
        rw [hdocument]
        exact schema.keyed r.positions
      refine List.forall₂_iff_zip.mpr ⟨hentries.length_eq, fun hzip => ?_⟩
      exact each ((List.forall₂_iff_zip.mp hentries).2 hzip) (List.of_mem_zip hzip).2

/-! ## A file beside the standard input -/

theorem source_standardInput {cs : List Char} (h : Utf8.decodeStrict w.input = .ok cs) :
    w.source standardInput = .ok (normalizeNewlines cs) := by
  simp only [World.source, if_true, bind, Except.bind, decodeSource, h]

theorem source_file {name : Text} {bytes : List UInt8} {cs : List Char}
    (hname : name ≠ standardInput) (hread : w.readFile name (Path.ofText name) = .ok bytes)
    (h : Utf8.decodeStrict bytes = .ok cs) : w.source name = .ok (normalizeNewlines cs) := by
  simp only [World.source, if_neg hname, hread, bind, Except.bind, decodeSource, h]

/-- An input is parsed when its characters are. -/
theorem schemaOf_eq {name : Text} {cs : List Char} {tokens : List Token} {schema : Schema}
    (hsource : w.source name = .ok cs) (htokens : tokenize cs = .ok tokens)
    (hschema : Schema.ofTokens tokens = .ok schema) :
    w.schemaOf name = .ok (schema, tokens.length) := by
  simp only [schemaOf, tokensOf, hsource, htokens, hschema, bind, Except.bind,
    Except.mapError]
  rfl

/-- A file, and nothing in the standard input. -/
def withPackage (name : Text) : World :=
  ⟨⟨[([name], .file ("package a;".toList.flatMap Utf8.encodeChar))]⟩, [], none⟩

theorem schemaOf_standardInput (name : Text) :
    (withPackage name).schemaOf standardInput = .ok (⟨none, []⟩, 1) := by
  have tokens : tokenize (normalizeNewlines []) =
      .ok [Lexicon.tokenOf .endOfInput [] ⟨1, 1⟩] :=
    (Lexicon.Tiling.finish
      (Lexicon.longestTrivia_of_stuck .nil Lexicon.stuck_nil)).tokenize rfl
  refine schemaOf_eq (source_standardInput (Utf8.decodeStrict_flatMap [])) tokens ?_
  with_unfolding_all rfl

theorem schemaOf_file {name : Text} (hname : name ≠ standardInput)
    (hread : (withPackage name).readFile name (Path.ofText name) =
      .ok ("package a;".toList.flatMap Utf8.encodeChar)) :
    (withPackage name).schemaOf name = .ok (⟨none, [.package ⟨"a", ⟨1, 1⟩⟩]⟩, 4) := by
  refine schemaOf_eq (source_file hname hread (Utf8.decodeStrict_flatMap _))
    tokenize_package ?_
  with_unfolding_all rfl

/-- The standard input and a file: something is written, with an entry for each. -/
theorem parse_keeps_inputs_two : ∃ text entries,
    ((withPackage "a").parse ⟨["a", "-"], none, true, .unasked, false⟩).Brings none text ∧
    Json.read? text = some (.object entries) ∧ entries.map Prod.fst = ["a", "<stdin>"] := by
  have file : (withPackage "a").schemaOf "a" = _ := schemaOf_file (by decide) (by decide)
  have read : ∀ name ∈ [Text.ofString "a", Text.ofString "-"],
      ∃ parsed, (withPackage "a").schemaOf name = .ok parsed :=
    List.forall_mem_cons.mpr ⟨⟨_, file⟩,
      List.forall_mem_cons.mpr ⟨⟨_, schemaOf_standardInput _⟩, nofun⟩⟩
  obtain ⟨⟨entries, hentries, some_text⟩, each⟩ :=
    parse_keeps_inputs (w := withPackage "a") (r := ⟨["a", "-"], none, true, .unasked, false⟩)
      rfl (by decide) (by decide) (by decide) read
  obtain rfl := entries_unique hentries
    (.cons ⟨_, _, file, rfl⟩ (.cons ⟨_, _, schemaOf_standardInput _, rfl⟩ .nil))
  have room : Document.Memory.usual.fits ⟨4, false⟩ (.object
      [("a", Schema.toDocument true ⟨none, [.package ⟨"a", ⟨1, 1⟩⟩]⟩),
        ("<stdin>", Schema.toDocument true ⟨none, []⟩)]) = true := by
    decide +kernel
  obtain ⟨text, htext⟩ :=
    some_text ⟨true, ⟨4, false⟩⟩ rfl ⟨by decide, by decide, room⟩ [] nofun
  obtain ⟨entries, hentries, hkeys, -⟩ := each text htext
  exact ⟨text, entries, htext, hentries, hkeys⟩

/-- Of the standard input and a file of the name it is shown by only the file has an entry. -/
theorem parse_keeps_inputs_clash : ∃ text schema,
    (withPackage "<stdin>").schemaOf standardInput = .ok (⟨none, []⟩, 1) ∧
    (withPackage "<stdin>").schemaOf "<stdin>" = .ok (schema, 4) ∧
    ((withPackage "<stdin>").parse
      ⟨[standardInput, "<stdin>"], none, true, .unasked, false⟩).Brings none text ∧
    Json.read? text = some (.object [("<stdin>", schema.toDocument true)]) := by
  have file : (withPackage "<stdin>").schemaOf "<stdin>" = _ :=
    schemaOf_file (by decide) (by decide)
  have entries : List.Forall₂ ((withPackage "<stdin>").IsEntry true)
      [standardInput, "<stdin>"] _ :=
    .cons ⟨_, _, schemaOf_standardInput _, rfl⟩ (.cons ⟨_, _, file, rfl⟩ .nil)
  have room : Document.Memory.usual.fits ⟨4, false⟩ (.object
      [("<stdin>", Schema.toDocument true ⟨none, [.package ⟨"a", ⟨1, 1⟩⟩]⟩)]) = true := by
    decide +kernel
  obtain ⟨notices, hparse⟩ :=
    parse_eq (w := withPackage "<stdin>")
      (r := ⟨[standardInput, "<stdin>"], none, true, .unasked, false⟩) (by decide) rfl entries
      (Document.setOut_eq ⟨by decide, by decide, room⟩)
  refine ⟨_, _, schemaOf_standardInput _, file,
    hparse ▸ brings_deliver_iff.mpr ⟨rfl, by nofun⟩, ?_⟩
  refine Json.read?_toJson (.object (List.pairwise_singleton _ _) ?_) _
  exact List.forall_mem_singleton.mpr (Schema.keyed _ true)

end World

end ProtoSchema
