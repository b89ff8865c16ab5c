import ProtoSchema.Proofs.Lexing.Spaceless
import ProtoSchema.Proofs.Taking.Value
import ProtoSchema.Proofs.Walk

/-!
# The text of an option's name

The name of an option is kept in parts, and its text is what the parts look like in a source.
Parts that can be written at all are read back from their text, so the text settles them; and
in a schema that is read from a source, the text is the one that stands there, without the
trivia.
-/
namespace ProtoSchema

open Lexicon Parse Position

/-! ## What can be written -/

/-- The text is an identifier. -/
def Text.IsIdentifier (x : Text) : Prop := ∃ w ∈ Lexicon.identifier, x = Text.ofChars w

/-- The text is one or more identifiers with points between them. -/
def Text.IsQualified (x : Text) : Prop :=
  ∃ parts : List Text, parts ≠ [] ∧ (∀ part ∈ parts, part.IsIdentifier) ∧
    x = Text.join "." parts

/-- The text is the name of a type, with a point in front or not. -/
def Text.IsTypeName (x : Text) : Prop :=
  x.IsQualified ∨ ∃ y : Text, y.IsQualified ∧ x = "." ++ y

namespace OptionNamePart

/-- A plain part can be written if it is an identifier, and an extension if it is the name of
a type. -/
def Writable (part : OptionNamePart) : Prop :=
  if part.isExtension then part.name.IsTypeName else part.name.IsIdentifier

/-- A part without its position. -/
def bare (part : OptionNamePart) : Text × Bool := (part.name, part.isExtension)

theorem map_bare_relocate (f : Position → Position) (parts : List OptionNamePart) :
    (parts.map (·.relocate f)).map bare = parts.map bare := List.map_map

end OptionNamePart

/-! ## From texts to names -/

section Lexes

variable {x : Text} {part : OptionNamePart} {parts : List OptionNamePart}

theorem Text.IsIdentifier.lexes (h : x.IsIdentifier) :
    Lexes AtMark AtName x (Rendering.identifier x) := by
  obtain ⟨w, hw, rfl⟩ := h
  exact .identifier hw

theorem Text.IsQualified.lexes (h : x.IsQualified) :
    Lexes AtMark AtName x (Rendering.qualified x) := by
  obtain ⟨parts, hne, hparts, rfl⟩ := h
  have parts : Lexes AtMark AtName (Text.join "." (parts.map id)) _ :=
    .separated hne fun part hpart => (hparts part hpart).lexes
  rw [List.map_id] at parts
  exact parts.mono (fun _ => id) (fun _ => id) fun ts hts => ⟨_, rfl, hts⟩

theorem Text.IsTypeName.lexes (h : x.IsTypeName) :
    Lexes AtMark AtName x (Rendering.typeName x) := by
  rcases h with h | ⟨y, hy, rfl⟩
  · exact h.lexes.mono (fun _ => id) (fun _ => id) fun ts hts => .inl hts
  · have point : Lexes AtName AtMark (Text.ofString ".") (Rendering.mark .dot) :=
      .mark (c := '.') (by decide) (by decide)
    exact (point.mul hy.lexes).mono (fun _ => id) (fun _ => AtMark.atName) fun ts hts =>
      .inr ⟨y, rfl, hts⟩

theorem OptionNamePart.Writable.lexes (h : part.Writable) :
    Lexes AtMark AtName (OptionName.partText part) (Rendering.optionNamePart False part) := by
  obtain ⟨x, isExtension, p⟩ := part
  cases isExtension with
  | false =>
    exact (Text.IsIdentifier.lexes h).mono (fun _ => id) (fun _ => id) fun ts hts =>
    ⟨hts, nofun⟩
  | true =>
    have opening : Lexes AtName AtMark (Text.ofChars ['(']) (Rendering.mark .leftParen) :=
      .mark (by decide) (by decide)
    have closing : Lexes AtName AtMark (Text.ofChars [')']) (Rendering.mark .rightParen) :=
      .mark (by decide) (by decide)
    have whole := opening.mul ((Text.IsTypeName.lexes h).mul closing)
    refine whole.mono (fun _ => AtMark.atName) (fun _ => AtMark.atName) fun ts hts =>
      ⟨?_, nofun⟩
    simpa only [if_true, List.prod_cons, List.prod_nil, mul_one] using hts

theorem OptionName.lexes (hne : parts ≠ []) (h : ∀ part ∈ parts, part.Writable) :
    Lexes AtMark AtName (OptionName.text parts) (Rendering.optionName False parts) :=
  .separated hne fun part hpart => (h part hpart).lexes

/-- The text of a name is a source of which the name is read, up to the end. -/
theorem OptionName.exists_read (hne : parts ≠ []) (h : ∀ part ∈ parts, part.Writable) :
    ∃ (source : List Char) (ts : List Token) (e : Token) (read : List OptionNamePart)
      (s : ParseState),
      OptionName.text parts = Text.ofChars source ∧
      tokenize source = .ok (ts ++ [e]) ∧ e.kind = .endOfInput ∧
      Grammar.optionName (ParseState.start (ts ++ [e])) = (.ok read, s) ∧
      s.index = ts.length ∧
      read.map OptionNamePart.bare = parts.map OptionNamePart.bare := by
  obtain ⟨source, ts, e, hsource, tokens, he, hts⟩ := (OptionName.lexes hne h).tokenize
  have takes : Takes (ParseState.start (ts ++ [e])).remaining Grammar.optionName ts
      [e] fun read =>
      read.map (·.relocate nowhere) = parts.map (·.relocate nowhere) :=
    Grammar.takes_optionName hts (by simp [he])
  obtain ⟨read, run, same⟩ := takes (ParseState.start (ts ++ [e])) le_rfl
    (by simpa using tokenize_ended tokens) (by simp) (by simp)
  refine ⟨source, ts, e, read, _, hsource, tokens, he, run, by
    simp [ParseState.past, ParseState.start], ?_⟩
  rw [← OptionNamePart.map_bare_relocate nowhere read, same, OptionNamePart.map_bare_relocate]

/-- The text of a name settles its parts. -/
theorem OptionName.bare_of_text {parts' : List OptionNamePart} (hne : parts ≠ [])
    (h : ∀ part ∈ parts, part.Writable) (hne' : parts' ≠ [])
    (h' : ∀ part ∈ parts', part.Writable)
    (same : OptionName.text parts = OptionName.text parts') :
    parts.map OptionNamePart.bare = parts'.map OptionNamePart.bare := by
  obtain ⟨source, ts, e, read, s, hsource, tokens, -, run, -, hread⟩ :=
    OptionName.exists_read hne h
  obtain ⟨source', ts', e', read', s', hsource', tokens', -, run', -, hread'⟩ :=
    OptionName.exists_read hne' h'
  obtain rfl : source = source' := Text.ofChars_injective (by rw [← hsource, same, hsource'])
  rw [tokens] at tokens'
  rw [Except.ok.inj tokens', run'] at run
  obtain rfl := Except.ok.inj (Prod.mk.inj run).1
  exact hread.symm.trans hread'

end Lexes

/-! ## From names to texts -/

section Shows

variable {x : Text} {part : OptionNamePart} {parts : List OptionNamePart} {ts : List Token}

theorem shows_qualified (x : Text) : Shows (Rendering.qualified x) x := by
  rintro tiles exact ⟨parts, rfl, h⟩
  have shows : Shows _ (Text.join "." (parts.map id)) := .separated Shows.identifier parts
  rw [List.map_id] at shows
  exact shows tiles exact h

theorem shows_typeName (x : Text) : Shows (Rendering.typeName x) x := by
  rintro tiles exact (h | ⟨y, rfl, h⟩)
  · exact shows_qualified x tiles exact h
  · have point : Shows (Rendering.mark .dot) (Text.ofChars ['.']) := .mark (by decide)
    exact point.mul (shows_qualified y) tiles exact h

theorem shows_optionNamePart (part : OptionNamePart) :
    Shows (Rendering.optionNamePart True part) (OptionName.partText part) := by
  obtain ⟨x, isExtension, p⟩ := part
  cases isExtension with
  | false => exact (Shows.identifier x).mono fun ts hts => hts.1
  | true =>
    have opening : Shows (Rendering.mark .leftParen) (Text.ofChars ['(']) := .mark (by decide)
    have closing : Shows (Rendering.mark .rightParen) (Text.ofChars [')']) :=
      .mark (by decide)
    refine (opening.mul ((shows_typeName x).mul closing)).mono fun ts hts => ?_
    simpa only [if_true, List.prod_cons, List.prod_nil, mul_one] using hts.1

theorem shows_optionName (parts : List OptionNamePart) :
    Shows (Rendering.optionName True parts) (OptionName.text parts) :=
  .separated shows_optionNamePart parts

/-- The token is an identifier only if its text is one. -/
def Token.IsSpelled (t : Token) : Prop := t.kind = .identifier → t.text.IsIdentifier

theorem Lexicon.Tile.Exact.isSpelled {t : Tile} (h : t.Exact) : t.token.IsSpelled := by
  intro hk
  unfold Exact at h
  rw [hk] at h
  generalize t.lexeme = w at h
  generalize t.token.text = x at h
  generalize hkind : TokenKind.identifier = kind at h
  cases h with
  | identifier hw => exact ⟨_, hw, rfl⟩
  | number _ hn =>
    subst hkind
    cases hn
  | string _ _ => cases hkind
  | mark hm =>
    subst hkind
    have none : ∀ m ∈ marks, m.2 ≠ .identifier := by decide
    exact absurd rfl (none _ hm)

theorem isQualified_of_mem (h : ts ∈ Rendering.qualified x) (hts : ∀ t ∈ ts, t.IsSpelled) :
    x.IsQualified := by
  obtain ⟨parts, rfl, h⟩ := h
  have identifier (y : Text) (us : List Token) (hu : us ∈ Rendering.identifier y)
      (spelled : ∀ t ∈ us, t.IsSpelled) : y.IsIdentifier := by
    obtain ⟨t, ⟨hk, rfl⟩, rfl⟩ := hu
    exact spelled t (by simp) hk
  obtain ⟨hne, hparts⟩ := Rendering.forall_of_separated identifier h hts
  exact ⟨parts, hne, hparts, rfl⟩

theorem isTypeName_of_mem (h : ts ∈ Rendering.typeName x) (hts : ∀ t ∈ ts, t.IsSpelled) :
    x.IsTypeName := by
  rcases h with h | ⟨y, rfl, us, -, vs, hv, rfl⟩
  · exact .inl (isQualified_of_mem h hts)
  · exact .inr ⟨y, isQualified_of_mem hv fun t ht => hts t (List.mem_append_right us ht), rfl⟩

theorem OptionNamePart.writable_of_mem (h : ts ∈ Rendering.optionNamePart True part)
    (hts : ∀ t ∈ ts, t.IsSpelled) : part.Writable := by
  obtain ⟨x, isExtension, p⟩ := part
  replace h := h.1
  cases isExtension with
  | false =>
    obtain ⟨t, ⟨hk, rfl⟩, rfl⟩ := h
    exact hts t (by simp) hk
  | true =>
    simp only [if_true, Rendering.mem_prod_cons, Rendering.mem_prod_singleton] at h
    obtain ⟨us, -, _, ⟨vs, hv, ws, -, rfl⟩, rfl⟩ := h
    exact isTypeName_of_mem hv fun t ht => hts t (by simp [ht])

/-- What the tokens of a source write can be written. -/
theorem OptionName.writable_of_mem (h : ts ∈ Rendering.optionName True parts)
    (hts : ∀ t ∈ ts, t.IsSpelled) : parts ≠ [] ∧ ∀ part ∈ parts, part.Writable :=
  Rendering.forall_of_separated (fun _ _ => OptionNamePart.writable_of_mem) h hts

end Shows

/-! ## Names in a source -/

/-- The tiles are those of a name that can be written, and the one behind them is an equals
sign. -/
structure OptionName.Names (parts : List OptionNamePart) (name : List Tile) (equals : Tile) :
    Prop where
  parts_ne_nil : parts ≠ []
  writable : ∀ part ∈ parts, part.Writable
  tokens : name.map Tile.token ∈ Rendering.optionName True parts
  equals : equals.lexeme = ['=']

theorem OptionName.Names.ne_nil {parts : List OptionNamePart} {name : List Tile}
    {equals : Tile} (h : Names parts name equals) : name ≠ [] := by
  rintro rfl
  refine Rendering.nil_notMem_separated (fun part h => ?_) h.tokens
  obtain ⟨t, ht, -⟩ := h.2 trivial
  cases ht

/-- What is written by the tokens of a name, an equals sign and more. -/
theorem OptionName.exists_names {parts : List OptionNamePart} {tiles : List Tile}
    {Ls : List (Language Token)} (exact : ∀ t ∈ tiles, t.Exact)
    (h : tiles.map Tile.token ∈
      Rendering.optionName True parts * (Rendering.mark .equals * Ls.prod)) :
    ∃ name equals rest, tiles = name ++ equals :: rest ∧ OptionName.Names parts name equals ∧
      OptionName.text parts = Text.ofChars (name.flatMap Tile.lexeme) := by
  obtain ⟨_, hu, _, ⟨_, ⟨e, he, rfl⟩, vs, -, rfl⟩, heq⟩ := h
  obtain ⟨name, rest, rfl, rfl, hrest⟩ := List.map_eq_append_iff.mp heq.symm
  obtain ⟨equals, rest, rfl, rfl, -⟩ := List.map_eq_cons_iff.mp hrest
  have hname : ∀ t ∈ name, t.Exact := fun t ht => exact t (by simp [ht])
  have spelled : ∀ t ∈ name.map Tile.token, t.IsSpelled :=
    List.forall_mem_map.mpr fun t ht => (hname t ht).isSpelled
  obtain ⟨hne, writable⟩ := writable_of_mem hu spelled
  have mark : equals.lexeme = ['='] :=
    IsLexeme.eq_mark (exact equals (by simp)) (by rw [he]; decide)
  exact ⟨name, equals, rest, rfl, ⟨hne, writable, hu, mark⟩,
    shows_optionName parts name hname hu⟩

/-- The tiles of a source that is a schema: each node is written by some of them that stand
side by side. -/
theorem Node.exists_tiles {source : List Char} {f : Schema}
    (h : Schema.ofSource source = .ok f) :
    ∃ (tiles : List Tile) (last : Tile), Tiling [] (unmarked source) (tiles ++ [last]) none ∧
      last.token.kind = .endOfInput ∧ (∀ t ∈ tiles, t.Exact) ∧
      ∀ n ∈ f.nodes, ∃ front written rest : List Tile, tiles = front ++ (written ++ rest) ∧
        written.map Tile.token ∈ n.rendering := by
  obtain ⟨tokens, ht, ended, hf⟩ := Schema.exists_tokens h
  obtain ⟨ts, e, rfl, he, hts⟩ := Schema.exists_end ended hf
  have lies := Rendering.walks_schema f ts hts (tokenize_increasing ht).append.1
  obtain ⟨tiles, tiling, htiles⟩ := exists_tiling_tokens ht
  obtain ⟨tiles, ends, rfl, rfl, hends⟩ := List.map_eq_append_iff.mp htiles
  obtain ⟨last, rfl, rfl⟩ := List.map_eq_singleton_iff.mp hends
  obtain ⟨us, e, hend, -, -, proper⟩ := ended.exists_end
  rw [← (List.append_inj' hend rfl).1] at proper
  refine ⟨tiles, last, tiling, he, fun t htile => ?_, fun n hn => ?_⟩
  · exact tiling.exact t (List.mem_append_left _ htile)
      (proper _ (List.mem_map_of_mem htile)).2
  · obtain ⟨ws, hws, us, vs, heq⟩ := lies.written n hn
    rw [List.append_assoc] at heq
    obtain ⟨front, others, rfl, rfl, hothers⟩ := List.map_eq_append_iff.mp heq.symm
    obtain ⟨written, rest, rfl, rfl, rfl⟩ := List.map_eq_append_iff.mp hothers
    exact ⟨front, written, rest, rfl, hws⟩

/-- The name of an option is read back from its text. If its parts can be written, the text is
a source of which the name is read, with the same names and flags, up to the end. In a schema
that is read from a source, the full name of an option is the characters of the tokens that
its name is written with: they stand behind the word of a statement, or at the position of an
option in brackets, and end at the equals sign. So the text settles the parts. -/
theorem OptionName.text_reads_back :
    (∀ parts : List OptionNamePart, parts ≠ [] → (∀ part ∈ parts, part.Writable) →
      ∃ (source : List Char) (ts : List Token) (e : Token) (read : List OptionNamePart)
        (s : ParseState), OptionName.text parts = Text.ofChars source ∧
        tokenize source = .ok (ts ++ [e]) ∧ e.kind = .endOfInput ∧
        Grammar.optionName (ParseState.start (ts ++ [e])) = (.ok read, s) ∧
        s.index = ts.length ∧
        read.map OptionNamePart.bare = parts.map OptionNamePart.bare) ∧
    (∀ source f, Schema.ofSource source = .ok f →
      ∃ (tiles : List Tile) (last : Tile),
      Tiling [] (unmarked source) (tiles ++ [last]) none ∧
        last.token.kind = .endOfInput ∧
        (∀ o, .option o ∈ f.nodes →
          ∃ (front : List Tile) (word : Tile) (name : List Tile) (equals : Tile)
            (rest : List Tile),
          tiles = front ++ word :: (name ++ equals :: rest) ∧
          word.token.position = o.position ∧
          OptionName.Names o.name name equals ∧
          o.fullName = Text.ofChars (name.flatMap Tile.lexeme)) ∧
        ∀ o, .compactOption o ∈ f.nodes →
        ∃ (front name : List Tile) (equals : Tile) (rest : List Tile),
          tiles = front ++ (name ++ equals :: rest) ∧
          (∃ t ∈ name.head?, t.token.position = o.position) ∧
          OptionName.Names o.name name equals ∧
          o.fullName = Text.ofChars (name.flatMap Tile.lexeme)) ∧
    ∀ parts parts' : List OptionNamePart,
      parts ≠ [] → (∀ part ∈ parts, part.Writable) → parts' ≠ [] →
      (∀ part ∈ parts', part.Writable) →
      OptionName.text parts = OptionName.text parts' →
      parts.map OptionNamePart.bare = parts'.map OptionNamePart.bare := by
  refine ⟨fun _ => OptionName.exists_read, fun source f h => ?_, fun _ _ =>
    OptionName.bare_of_text⟩
  obtain ⟨tiles, last, tiling, hlast, exact, hnodes⟩ := Node.exists_tiles h
  refine ⟨tiles, last, tiling, hlast, fun o ho => ?_, fun o ho => ?_⟩
  · obtain ⟨front, written, rest, rfl, hwritten⟩ := hnodes _ ho
    obtain ⟨u, us, hfirst, hp⟩ := Node.exists_first hwritten
    obtain ⟨⟨_, ⟨t, -, rfl⟩, vs, hv, heq⟩, -⟩ := hwritten
    obtain ⟨word, behind, rfl, rfl, rfl⟩ := List.map_eq_cons_iff.mp heq.symm
    have hbehind : ∀ t ∈ behind, t.Exact := fun t ht => exact t (by simp [ht])
    obtain ⟨name, equals, others, rfl, names, characters⟩ :=
      OptionName.exists_names hbehind hv
    obtain rfl : word.token = u := (List.cons.inj hfirst).1
    exact ⟨front, word, name, equals, others ++ rest, by simp, hp, names, characters⟩
  · obtain ⟨front, written, rest, rfl, hwritten⟩ := hnodes _ ho
    obtain ⟨u, us, hfirst, hp⟩ := Node.exists_first hwritten
    have hexact : ∀ t ∈ written, t.Exact := fun t ht => exact t (by simp [ht])
    obtain ⟨name, equals, others, rfl, names, characters⟩ :=
      OptionName.exists_names hexact hwritten.1
    obtain ⟨first, name, rfl⟩ := List.exists_cons_of_ne_nil names.ne_nil
    obtain rfl : first.token = u := (List.cons.inj hfirst).1
    exact ⟨front, _, equals, others ++ rest, by simp, ⟨first, rfl, hp⟩, names, characters⟩

/-- A schema of one option: its name is an extension of two names, and a plain part. -/
def extensionSource : List Char := "option (a.b).c=d;".toList

/-- The option in it. -/
def extensionOption : OptionStatement :=
  ⟨[⟨"a.b", true, ⟨1, 8⟩⟩, ⟨"c", false, ⟨1, 14⟩⟩], .scalar ⟨.identifier "d", ⟨1, 16⟩⟩, ⟨1, 1⟩⟩

theorem tokenize_extension : tokenize extensionSource = .ok
    [⟨.identifier, "option", ⟨1, 1⟩, true⟩, ⟨.leftParen, "(", ⟨1, 8⟩, false⟩,
      ⟨.identifier, "a", ⟨1, 9⟩, false⟩, ⟨.dot, ".", ⟨1, 10⟩, false⟩,
      ⟨.identifier, "b", ⟨1, 11⟩, false⟩, ⟨.rightParen, ")", ⟨1, 12⟩, false⟩,
      ⟨.dot, ".", ⟨1, 13⟩, false⟩, ⟨.identifier, "c", ⟨1, 14⟩, false⟩,
      ⟨.equals, "=", ⟨1, 15⟩, false⟩, ⟨.identifier, "d", ⟨1, 16⟩, false⟩,
      ⟨.semicolon, ";", ⟨1, 17⟩, false⟩, ⟨.endOfInput, [], ⟨1, 18⟩, false⟩] := by
  decide +kernel

theorem Schema.ofSource_extension :
    Schema.ofSource extensionSource = .ok ⟨none, [.option extensionOption]⟩ := by
  rw [Schema.ofSource, tokenize_extension]
  with_unfolding_all rfl

/-- The name `(a.b).c` is the one that stands in the schema, and it is read back. -/
theorem OptionName.text_reads_back_extension :
    (∃ name equals, OptionName.Names extensionOption.name name equals ∧
      Text.ofChars (name.flatMap Tile.lexeme) = "(a.b).c") ∧
    ∃ (ts : List Token) (e : Token) (read : List OptionNamePart) (s : ParseState),
      tokenize "(a.b).c".toList = .ok (ts ++ [e]) ∧
      Grammar.optionName (ParseState.start (ts ++ [e])) = (.ok read, s) ∧
      s.index = ts.length ∧
      read.map OptionNamePart.bare =
        [(Text.ofString "a.b", true), (Text.ofString "c", false)] := by
  obtain ⟨reads, stands, -⟩ := OptionName.text_reads_back
  obtain ⟨tiles, last, -, -, statements, -⟩ := stands _ _ Schema.ofSource_extension
  obtain ⟨front, word, name, equals, rest, -, -, names, characters⟩ :=
    statements extensionOption
      (by simp [Schema.nodes, SchemaElement.nodes, OptionStatement.nodes])
  obtain ⟨source, ts, e, read, s, hsource, tokens, -, run, index, same⟩ :=
    reads _ names.parts_ne_nil names.writable
  obtain rfl : "(a.b).c".toList = source := Text.ofChars_injective hsource
  exact ⟨⟨name, equals, names, characters.symm⟩, ts, e, read, s, tokens, run, index, same⟩

end ProtoSchema
