import ProtoSchema.Proofs.Rendering.Word

/-!
# Renderings of option values

Scalars and messages in the text format. A message may be written in braces or in angle
brackets, at every level of nesting, and each of its entries may have a comma or a semicolon
behind it.
-/
namespace ProtoSchema.Rendering

variable (placed : Prop)

/-- How the number behind a sign may be written. -/
def number (negative : Bool) : Scalar → Language Token
  | .integer m => unsigned (if negative then -m else m)
  | .real x => magnitude (if negative then x.negate else x)
  | _ => 0

/-- A number with its sign; a plus may be left out. -/
def signedNumber (v : Scalar) : Language Token :=
  maybe (mark .plus) * number false v + mark .minus * number true v

theorem mem_signedNumber {v : Scalar} {ts : List Token} : ts ∈ signedNumber v ↔
    ts ∈ maybe (mark .plus) * number false v ∨ ts ∈ mark .minus * number true v := Iff.rfl

/-- How a scalar may be written. `inf` is a number and no identifier. -/
def scalar : Scalar → Language Token
  | .string x => strings x
  | .integer m => signedNumber (.integer m)
  | .real x => signedNumber (.real x)
  | .identifier x => {ts | x ≠ Text.ofString "inf" ∧ ts ∈ identifier x}

/-- Whatever can be written as a number with a sign is such a scalar. -/
theorem mem_scalar_of_signed {v : Scalar} {ts : List Token} (h : ts ∈ signedNumber v) :
    ts ∈ scalar v := by
  cases v with
  | integer m => exact h
  | real x => exact h
  | string x => rcases h with ⟨_, -, _, h, -⟩ | ⟨_, -, _, h, -⟩ <;> cases h
  | identifier x => rcases h with ⟨_, -, _, h, -⟩ | ⟨_, -, _, h, -⟩ <;> cases h

/-- How a scalar may be written. -/
def scalarValue (v : ScalarValue) : Language Token :=
  starting placed v.position (scalar v.scalar)

/-- How the name of an entry may be written. -/
def entryName : EntryNameKind → Text → Language Token
  | .plain, x => identifier x
  | .extension, x => [mark .leftBracket, qualified x, mark .rightBracket].prod
  | .typeUrl, x => {ts | ∃ host type, x = host ++ .char '/' :: type ∧ ts ∈
      [mark .leftBracket, qualified host, mark .slash, qualified type,
        mark .rightBracket].prod}

/-- Something in braces or in angle brackets. -/
def embraced (L : Language Token) : Language Token :=
  [mark .leftBrace, L, mark .rightBrace].prod + [mark .leftAngle, L, mark .rightAngle].prod

theorem mem_embraced {L : Language Token} {ts : List Token} : ts ∈ embraced L ↔
    ts ∈ [mark .leftBrace, L, mark .rightBrace].prod ∨
      ts ∈ [mark .leftAngle, L, mark .rightAngle].prod := Iff.rfl

/-- The kinds of a pair of brackets around a message. -/
def IsBracePair (opening close : TokenKind) : Prop :=
  opening = .leftBrace ∧ close = .rightBrace ∨ opening = .leftAngle ∧ close = .rightAngle

theorem exists_bracePair {L : Language Token} {ts : List Token} (h : ts ∈ embraced L) :
    ∃ t us close, ts = t :: us ∧ IsBracePair t.kind close ∧ us ∈ L * mark close := by
  rcases mem_embraced.mp h with h | h
  all_goals
    simp only [mem_prod_cons, mem_prod_singleton] at h
    obtain ⟨_, ⟨t, ht, rfl⟩, us, hu, rfl⟩ := h
  · exact ⟨t, us, _, rfl, .inl ⟨ht, rfl⟩, Language.mem_mul.mpr hu⟩
  · exact ⟨t, us, _, rfl, .inr ⟨ht, rfl⟩, Language.mem_mul.mpr hu⟩

/-- Something in brackets. -/
def bracketed (L : Language Token) : Language Token :=
  [mark .leftBracket, L, mark .rightBracket].prod

/-- What may stand behind an entry of a message. -/
def entrySeparator : Language Token := maybe (mark .comma + mark .semicolon)

mutual

/-- A message literal, in either kind of brackets. -/
def messageLiteral : MessageLiteral → Language Token
  | ⟨entries, p⟩ => starting placed p (embraced (literalEntries entries))

/-- The entries of a message literal, each with what may stand behind it. -/
def literalEntries : List LiteralEntry → Language Token
  | [] => 1
  | e :: es => [literalEntry e, entrySeparator, literalEntries es].prod

/-- An entry: its name and its value. -/
def literalEntry : LiteralEntry → Language Token
  | ⟨name, value, kind, p⟩ => starting placed p (entryName kind name * entryValue value)

/-- A value with the colon in front of it. The colon may be left out before a message, and it
must be before a list of messages that is to be read as one. -/
def entryValue : EntryValue → Language Token
  | .scalar v => mark .colon * scalarValue placed v
  | .message m => maybe (mark .colon) * messageLiteral m
  | .list es p => mark .colon * starting placed p (bracketed (optionValues es))
  | .messages ms p => starting placed p (bracketed (messageLiterals ms))

/-- What an option may be given. -/
def optionValue : OptionValue → Language Token
  | .scalar v => scalarValue placed v
  | .message m => messageLiteral m

/-- Values with commas between them; there may be none. -/
def optionValues : List OptionValue → Language Token
  | [] => 1
  | v :: vs => optionValue v * moreOptionValues vs

/-- The values behind the first, each with a comma in front. -/
def moreOptionValues : List OptionValue → Language Token
  | [] => 1
  | v :: vs => (mark .comma * optionValue v) * moreOptionValues vs

def messageLiterals : List MessageLiteral → Language Token
  | [] => 1
  | m :: ms => messageLiteral m * moreMessageLiterals ms

def moreMessageLiterals : List MessageLiteral → Language Token
  | [] => 1
  | m :: ms => (mark .comma * messageLiteral m) * moreMessageLiterals ms

end

theorem messageLiteral_eq : messageLiteral placed = fun m =>
    starting placed m.position (embraced (literalEntries placed m.entries)) := by
  funext ⟨entries, p⟩
  rw [messageLiteral]

theorem literalEntry_eq : literalEntry placed = fun e =>
    starting placed e.position (entryName e.nameKind e.name * entryValue placed e.value) := by
  funext ⟨x, v, kind, p⟩
  rw [literalEntry]

theorem literalEntries_eq (es : List LiteralEntry) :
    literalEntries placed es =
      (es.map fun e => literalEntry placed e * entrySeparator).prod := by
  induction es with
  | nil => simp [literalEntries]
  | cons e es ih => simp [literalEntries, ih, mul_assoc]

theorem moreOptionValues_eq (vs : List OptionValue) :
    moreOptionValues placed vs =
      (vs.map fun v => mark .comma * optionValue placed v).prod := by
  induction vs with
  | nil => simp [moreOptionValues]
  | cons v vs ih => simp [moreOptionValues, ih]

theorem moreMessageLiterals_eq (ms : List MessageLiteral) :
    moreMessageLiterals placed ms =
      (ms.map fun m => mark .comma * messageLiteral placed m).prod := by
  induction ms with
  | nil => simp [moreMessageLiterals]
  | cons m ms ih => simp [moreMessageLiterals, ih]

theorem optionValues_eq (vs : List OptionValue) :
    optionValues placed vs = listing (optionValue placed) vs := by
  cases vs with
  | nil => simp [optionValues, listing]
  | cons v vs => simp [optionValues, listing, separated, moreOptionValues_eq]

theorem messageLiterals_eq (ms : List MessageLiteral) :
    messageLiterals placed ms = listing (messageLiteral placed) ms := by
  cases ms with
  | nil => simp [messageLiterals, listing]
  | cons m ms => simp [messageLiterals, listing, separated, moreMessageLiterals_eq]

/-- The name of an option: plain parts and extensions in parentheses, with points between. -/
def optionNamePart (part : OptionNamePart) : Language Token :=
  starting placed part.position <|
    if part.isExtension then [mark .leftParen, typeName part.name, mark .rightParen].prod
    else identifier part.name

/-- The parts of a name, with points between them. -/
def optionName (parts : List OptionNamePart) : Language Token :=
  separated .dot (optionNamePart placed) parts

/-! ## What takes no token -/

theorem nil_notMem_scalar (v : Scalar) : [] ∉ scalar v := by
  cases v with
  | string x => exact nil_notMem_strings x
  | identifier x => exact fun h => nil_notMem_identifier x h.2
  | integer n => simp [scalar, mem_signedNumber, number]
  | real x => simp [scalar, mem_signedNumber, number]

theorem nil_notMem_scalarValue (v : ScalarValue) : [] ∉ scalarValue placed v :=
  nil_notMem_starting (nil_notMem_scalar _)

theorem nil_notMem_entryName (kind : EntryNameKind) (x : Text) : [] ∉ entryName kind x := by
  cases kind with
  | plain => exact nil_notMem_identifier x
  | extension => simp [entryName]
  | typeUrl =>
    rintro ⟨host, type, -, h⟩
    simp at h

theorem nil_notMem_literalEntry (e : LiteralEntry) : [] ∉ literalEntry placed e := by
  rw [literalEntry_eq]
  exact nil_notMem_starting (by simp [nil_notMem_entryName])

end ProtoSchema.Rendering
