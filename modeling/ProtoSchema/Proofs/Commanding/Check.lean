import ProtoSchema.Proofs.Commanding.Parse

/-!
# Checks

What a command checks before it writes anything: that no input is given twice, then the
setting of the indent, then the inputs in their order. What can be wrong is said here of the
bytes, the characters and the tokens, apart from the run; a run ends with the first check that
fails, and says what is wrong there.
-/
namespace ProtoSchema

open CommandLine

variable {σ ε : Type} [Host σ ε]

/-! ## What is wrong with an input -/

namespace World

variable {w : World σ} {name : Text} {e : InputError ε}

/-- The bytes of an input. -/
inductive Holds (w : World σ) : Text → List UInt8 → Prop where
  | standardInput : Holds w standardInput w.input
  | file {name : Text} {bytes : List UInt8} : name ≠ standardInput →
    (Path.ofText name).isNameable = true → Host.read w.files (Path.ofText name) = .ok bytes →
    Holds w name bytes

/-- Why the characters of an input cannot be had. No command handles a name that the system
cannot be given, or bytes that are no text. -/
inductive SourceFault (w : World σ) : Text → InputError ε → Prop where
  | unreadable {name : Text} {e : ε} : name ≠ standardInput →
    (Path.ofText name).isNameable = true → Host.read w.files (Path.ofText name) = .error e →
    SourceFault w name (.unreadable name e)
  | unnameable {name : Text} : name ≠ standardInput → (Path.ofText name).isNameable = false →
    SourceFault w name (.crashed .unnameable)
  | undecodable {name : Text} {bytes : List UInt8} {e : Utf8.Error} : w.Holds name bytes →
    Utf8.decodeStrict bytes = .error e → SourceFault w name (.crashed (.undecodable e))

/-- Why an input gives no tokens. -/
inductive TokenFault (w : World σ) : Text → InputError ε → Prop where
  | source {name : Text} {e : InputError ε} : w.SourceFault name e → TokenFault w name e
  | lexical {name : Text} {source : List Char} {e : LexicalError} :
    w.source name = .ok source →
    tokenize source = .error e → TokenFault w name (.faulty ⟨displayName name, .lexical e⟩)

/-- Why an input gives no schema. -/
inductive SchemaFault (w : World σ) : Text → InputError ε → Prop where
  | tokens {name : Text} {e : InputError ε} : w.TokenFault name e → SchemaFault w name e
  | grammatical {name : Text} {tokens : List Token} {e : SyntaxError} :
    w.tokensOf name = .ok tokens →
    Schema.ofTokens tokens = .error (.unexpected e) →
    SchemaFault w name (.faulty ⟨displayName name, .unexpected e⟩)

theorem Holds.source_eq {bytes : List UInt8} (h : w.Holds name bytes) :
    w.source name = decodeSource bytes := by
  cases h with
  | standardInput => simp only [source, if_true, bind, Except.bind]
  | file hname hnameable hread =>
    simp [source, hname, readFile, hnameable, hread, bind, Except.bind, Except.mapError]

theorem SourceFault.source_eq (h : w.SourceFault name e) : w.source name = .error e := by
  cases h with
  | unreadable hname hnameable hread =>
    simp [source, hname, readFile, hnameable, hread, bind, Except.bind, Except.mapError]
  | unnameable hname hnameable => simp [source, hname, readFile, hnameable, bind, Except.bind]
  | undecodable held hdecode => rw [held.source_eq, decodeSource, hdecode]

theorem TokenFault.tokensOf_eq (h : w.TokenFault name e) : w.tokensOf name = .error e := by
  cases h with
  | source h => simp [tokensOf, h.source_eq, bind, Except.bind]
  | lexical hsource htokens =>
    simp [tokensOf, hsource, htokens, bind, Except.bind, Except.mapError,
      InputError.ofSchemaError]

theorem SchemaFault.schemaOf_eq (h : w.SchemaFault name e) : w.schemaOf name = .error e := by
  cases h with
  | tokens h => simp [schemaOf, h.tokensOf_eq, bind, Except.bind]
  | grammatical htokens hschema =>
    simp [schemaOf, htokens, hschema, bind, Except.bind, Except.mapError,
      InputError.ofSchemaError]

/-- What is not held cannot be read. -/
theorem holds_or_sourceFault (w : World σ) (name : Text) :
    (∃ bytes, w.Holds name bytes) ∨ ∃ e, w.SourceFault name e := by
  by_cases hname : name = standardInput
  · subst hname
    exact .inl ⟨_, .standardInput⟩
  cases hnameable : (Path.ofText name).isNameable with
  | false => exact .inr ⟨_, .unnameable hname hnameable⟩
  | true =>
    cases hread : Host.read w.files (Path.ofText name) with
    | error e => exact .inr ⟨_, .unreadable hname hnameable hread⟩
    | ok bytes => exact .inl ⟨bytes, .file hname hnameable hread⟩

/-- A source fails to be read just for the faults listed for one. -/
theorem source_error_iff : w.source name = .error e ↔ w.SourceFault name e := by
  refine ⟨fun h => ?_, SourceFault.source_eq⟩
  rcases w.holds_or_sourceFault name with ⟨bytes, held⟩ | ⟨e', fault⟩
  · cases hdecode : Utf8.decodeStrict bytes with
    | error d =>
      have fault : w.SourceFault name _ := .undecodable held hdecode
      rw [fault.source_eq] at h
      rwa [← Except.error.inj h]
    | ok cs =>
      rw [held.source_eq, decodeSource, hdecode] at h
      cases h
  · rw [fault.source_eq] at h
    rwa [← Except.error.inj h]

/-- The tokens of a source fail to be read just for the faults listed for them. -/
theorem tokensOf_error_iff : w.tokensOf name = .error e ↔ w.TokenFault name e := by
  refine ⟨fun h => ?_, TokenFault.tokensOf_eq⟩
  cases hsource : w.source name with
  | error e' =>
    have fault : w.TokenFault name e' := .source (source_error_iff.mp hsource)
    rw [fault.tokensOf_eq] at h
    rwa [← Except.error.inj h]
  | ok source =>
    cases htokens : tokenize source with
    | error e' =>
      have fault : w.TokenFault name _ := .lexical hsource htokens
      rw [fault.tokensOf_eq] at h
      rwa [← Except.error.inj h]
    | ok tokens =>
      simp only [tokensOf, hsource, htokens, bind, Except.bind, Except.mapError] at h
      cases h

/-- The tokens that an input gives are as the grammar asks for. -/
theorem ended_of_tokensOf {tokens : List Token} (h : w.tokensOf name = .ok tokens) :
    Ended tokens := by
  cases hsource : w.source name with
  | error e => simp [tokensOf, hsource, bind, Except.bind] at h
  | ok source =>
    cases htokens : tokenize source with
    | error e => simp [tokensOf, hsource, htokens, bind, Except.bind, Except.mapError] at h
    | ok tokens' =>
      simp only [tokensOf, hsource, htokens, bind, Except.bind, Except.mapError,
        Except.ok.injEq] at h
      exact h ▸ tokenize_ended htokens

/-- A schema fails to be read just for the faults listed for one. -/
theorem schemaOf_error_iff : w.schemaOf name = .error e ↔ w.SchemaFault name e := by
  refine ⟨fun h => ?_, SchemaFault.schemaOf_eq⟩
  cases htokens : w.tokensOf name with
  | error e' =>
    have fault : w.SchemaFault name e' := .tokens (tokensOf_error_iff.mp htokens)
    rw [fault.schemaOf_eq] at h
    rwa [← Except.error.inj h]
  | ok tokens =>
    cases hschema : Schema.ofTokens tokens with
    | error failure =>
      obtain ⟨e', rfl, -⟩ := Schema.ofTokens_error (ended_of_tokensOf htokens) hschema
      have fault : w.SchemaFault name _ := .grammatical htokens hschema
      rw [fault.schemaOf_eq] at h
      rwa [← Except.error.inj h]
    | ok schema =>
      simp only [schemaOf, htokens, hschema, bind, Except.bind, Except.mapError] at h
      cases h

end World

/-! ## Names given twice -/

theorem nodup_eraseDups (names : List Text) : names.eraseDups.Nodup := by
  induction h : names.length using Nat.strongRecOn generalizing names with | ind n ih
  cases names with
  | nil => exact .nil
  | cons name names =>
    rw [List.eraseDups_cons, List.nodup_cons]
    refine ⟨fun hmem => ?_, ih _ ?_ _ rfl⟩
    · simp [List.mem_eraseDups] at hmem
    · have shorter := List.length_filter_le (fun b => !b == name) names
      simp only [List.length_cons] at h
      omega

namespace World

/-- The names that stand in a list more than once. -/
theorem mem_repeatedNames {names : List Text} {name : Text} :
    name ∈ repeatedNames names ↔ 1 < names.count name := by
  rw [repeatedNames, List.mem_mergeSort, List.mem_eraseDups, List.mem_filter,
    decide_eq_true_eq, and_iff_right_iff_imp]
  exact fun h => List.count_pos_iff.mp (Nat.lt_of_succ_lt h)

/-- Each of them stands there once, and they are in order. -/
theorem pairwise_repeatedNames (names : List Text) :
    (repeatedNames names).Pairwise fun a b => a.precedes b = true := by
  have sorted : (repeatedNames names).Pairwise fun a b => Document.keyOrder a b = true :=
    List.pairwise_mergeSort Document.keyOrder_trans Document.keyOrder_total _
  have distinct : (repeatedNames names).Nodup := List.nodup_mergeSort.mpr (nodup_eraseDups _)
  refine (sorted.and distinct).imp fun {a b} ⟨hle, hne⟩ => ?_
  rw [Text.precedes_iff]
  rw [Document.keyOrder_iff] at hle
  refine lt_of_le_of_ne hle fun heq => hne ?_
  exact List.map_injective_iff.mpr Glyph.code_injective heq

end World

/-! ## Checks in order -/

/-- What a command checks. -/
inductive Check where
  | distinct (names : List Text)
  | indent (asked : IndentRequest)
  | schema (name : Text)
  | tokens (name : Text)

/-- What is checked for a request to parse, in order. -/
def CommandLine.ParseRequest.checks (r : ParseRequest) : List Check :=
  .distinct r.inputs :: .indent r.indent :: r.inputs.map .schema

/-- What is checked for a request, in order. -/
def CommandLine.Request.checks : Request → List Check
  | .parse r => r.checks
  | .tokens name => [.tokens name]

namespace World

variable [SystemError ε] {w : World σ} {r : ParseRequest} {checks : List Check}
  {check : Check}
  {outcome : Except (Crash ε) Text}

/-- A check fails, and this is said of it, or no command handles the failure. -/
inductive Fails (w : World σ) : Check → Except (Crash ε) Text → Prop where
  | repeated {names repeated : List Text} : repeated ≠ [] →
    (∀ name, name ∈ repeated ↔ 1 < names.count name) →
    repeated.Pairwise (fun a b => a.precedes b = true) →
    Fails w (.distinct names)
      (.ok (Text.ofString "Error: Input given more than once: " ++ Text.join ", " repeated))
  | setting {setting : Text} {e : NumeralError} : w.indentSetting = some setting →
    Numeral.readInteger 10 setting = .error e →
    Fails w (.indent .unasked) (.ok (Text.ofString "Error: " ++
      (Text.ofString "PROTOAST_INDENT must be an integer, got " ++
        Text.ofChars setting.quoted)))
  | schema {name : Text} {e : InputError ε} : w.SchemaFault name e →
    Fails w (.schema name) e.outcome
  | tokens {name : Text} {e : InputError ε} : w.TokenFault name e →
    Fails w (.tokens name) e.outcome

def Passes (w : World σ) (check : Check) : Prop := ∀ outcome, ¬w.Fails check outcome

/-- The first of the checks that fails, and what is said of it. -/
inductive Stops (w : World σ) : List Check → Check → Except (Crash ε) Text → Prop where
  | here {check : Check} {outcome : Except (Crash ε) Text} {later : List Check} :
    w.Fails check outcome → Stops w (check :: later) check outcome
  | later {passed check : Check} {outcome : Except (Crash ε) Text} {checks : List Check} :
    w.Passes passed → Stops w checks check outcome → Stops w (passed :: checks) check outcome

theorem passes_distinct_iff {names : List Text} :
    w.Passes (.distinct names) ↔ repeatedNames names = [] := by
  constructor
  · intro passes
    by_contra hne
    exact passes _ (.repeated hne (fun _ => mem_repeatedNames) (pairwise_repeatedNames names))
  · rintro hnil _ ⟨hne, hmem, -⟩
    obtain ⟨name, hname⟩ := List.exists_mem_of_ne_nil _ hne
    rw [hmem, ← mem_repeatedNames, hnil] at hname
    cases hname

/-- There is one list of the names that are given more than once. -/
theorem repeatedNames_eq {names repeated : List Text}
    (hmem : ∀ name, name ∈ repeated ↔ 1 < names.count name)
    (sorted : repeated.Pairwise fun a b => a.precedes b = true) :
    repeatedNames names = repeated := by
  have lt_of {names : List Text} (h : names.Pairwise fun a b => a.precedes b = true) :
      names.Pairwise fun a b => a.map Glyph.code < b.map Glyph.code :=
    h.imp fun h => Text.precedes_iff.mp h
  have first := lt_of (pairwise_repeatedNames names)
  have second := lt_of sorted
  have distinct {names : List Text}
      (h : names.Pairwise fun a b => a.map Glyph.code < b.map Glyph.code) :
      names.Nodup := h.imp fun h heq => h.ne (congrArg _ heq)
  have same : (repeatedNames names).Perm repeated := by
    rw [List.perm_ext_iff_of_nodup (distinct first) (distinct second)]
    exact fun name => mem_repeatedNames.trans (hmem name).symm
  exact same.eq_of_pairwise (fun _ _ _ _ hab hba => absurd hab hba.not_gt) first second

theorem passes_schema_iff {name : Text} :
    w.Passes (.schema name) ↔ ∃ parsed, w.schemaOf name = .ok parsed := by
  constructor
  · intro passes
    cases h : w.schemaOf name with
    | error e => exact absurd (.schema (schemaOf_error_iff.mp h)) (passes _)
    | ok parsed => exact ⟨parsed, rfl⟩
  · rintro ⟨parsed, h⟩ _ ⟨fault⟩
    rw [SchemaFault.schemaOf_eq ‹_›] at h
    cases h

/-- The number of spaces that is asked for, set or usual. -/
inductive Indents (w : World σ) : IndentRequest → ℤ → Prop where
  | asked (n : ℤ) : Indents w (.spaces n) n
  | set {setting : Text} {n : ℤ} : w.indentSetting = some setting →
    Numeral.readInteger 10 setting = .ok n → Indents w .unasked n
  | usual : w.indentSetting = none → Indents w .unasked 4

theorem indents_unasked_iff {n : ℤ} :
    w.Indents .unasked n ↔ defaultIndent w.indentSetting = .ok n := by
  constructor
  · intro h
    cases h with
    | set hset hread => simp [hset, defaultIndent, hread, Except.mapError]
    | usual hset => simp [hset, defaultIndent]
  · intro h
    cases hset : w.indentSetting with
    | none =>
      rw [hset] at h
      obtain rfl := Except.ok.inj h
      exact .usual hset
    | some setting =>
      cases hread : Numeral.readInteger 10 setting with
      | error e => simp [hset, defaultIndent, hread, Except.mapError] at h
      | ok m =>
        simp only [hset, defaultIndent, hread, Except.mapError, Except.ok.injEq] at h
        exact h ▸ .set hset hread

theorem emitOptions_iff {options : EmitOptions} : w.emitOptions r = .ok (some options) ↔
    ∃ n, w.Indents r.indent n ∧ options = ⟨r.positions, ⟨n, r.sortKeys⟩⟩ := by
  cases hindent : r.indent with
  | blank =>
    simp only [emitOptions, hindent, Except.ok.injEq, reduceCtorEq, false_iff]
    rintro ⟨n, ⟨⟩, -⟩
  | spaces m =>
    have asked (n : ℤ) : w.Indents (.spaces m) n ↔ n = m :=
      ⟨fun h => by cases h; rfl, fun h => h ▸ .asked n⟩
    simp [emitOptions, hindent, EmitOptions.resolve, Except.map, asked, eq_comm]
  | unasked =>
    simp only [emitOptions, hindent, EmitOptions.resolve, indents_unasked_iff]
    cases defaultIndent w.indentSetting <;> simp [Except.map, eq_comm]

/-- The check of the setting fails where there are no options, and says why. -/
theorem fails_indent_iff : w.Fails (.indent r.indent) outcome ↔
    ∃ e, w.emitOptions r = .error e ∧
    outcome = .ok (Text.ofString "Error: " ++ e.message) := by
  constructor
  · intro h
    generalize hasked : r.indent = asked at h
    cases h with
    | @setting setting e hset hread =>
      refine ⟨⟨setting⟩, ?_, rfl⟩
      simp [emitOptions, hasked, EmitOptions.resolve, defaultIndent, hset, hread,
        Except.mapError, Except.map]
  · rintro ⟨e, h, rfl⟩
    cases hasked : r.indent with
    | blank => simp [emitOptions, hasked] at h
    | spaces n => simp [emitOptions, hasked, EmitOptions.resolve, Except.map] at h
    | unasked =>
      cases hset : w.indentSetting with
      | none =>
        simp [emitOptions, hasked, EmitOptions.resolve, defaultIndent, hset, Except.map] at h
      | some setting =>
        cases hread : Numeral.readInteger 10 setting with
        | ok n =>
          simp [emitOptions, hasked, EmitOptions.resolve, defaultIndent, hset, hread,
            Except.mapError, Except.map] at h
        | error fault =>
          obtain rfl : ⟨setting⟩ = e := by
            simpa [emitOptions, hasked, EmitOptions.resolve, defaultIndent, hset, hread,
              Except.mapError, Except.map] using h
          exact .setting hset hread

/-- The check of the indent passes just where the options of the output can be made. -/
theorem passes_indent_iff :
    w.Passes (.indent r.indent) ↔ ∃ options, w.emitOptions r = .ok options := by
  cases h : w.emitOptions r with
  | error e => simp [Passes, fails_indent_iff, h]
  | ok options => simp [Passes, fails_indent_iff, h]

end World

end ProtoSchema
