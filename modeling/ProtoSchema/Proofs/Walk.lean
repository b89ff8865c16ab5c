import ProtoSchema.Proofs.Formatting
import ProtoSchema.Proofs.Soundness
import ProtoSchema.Proofs.Lexing.Order
import ProtoSchema.Proofs.Walking.Name
import ProtoSchema.Proofs.Walking.Schema

/-!
# Walking through a schema

The nodes of a schema that is read from a source, walked through depth first, come in the
order of the source: each stands at the first of the tokens it is written with. The names of
its options come in that order too.
-/
namespace ProtoSchema

open Lexicon Parse

/-- The tokens of a source stand one behind the other. -/
theorem tokenize_increasing {source : List Char} {tokens : List Token}
    (h : tokenize source = .ok tokens) : Increasing tokens := by
  obtain ⟨tiles, tiling, rfl⟩ := exists_tiling_tokens h
  exact tiling.increasing

/-- The tokens in front of the end token write the schema that they are read as. -/
theorem Schema.exists_end {tokens : List Token} (h : Ended tokens) {f : Schema}
    (hf : Schema.ofTokens tokens = .ok f) :
    ∃ ts e, tokens = ts ++ [e] ∧ e.kind = .endOfInput ∧ ts ∈ Rendering.schema True f := by
  obtain ⟨s, run, ts, rest, htokens, hne, rfl, hts, -⟩ := Schema.exists_outcome True h hf
  obtain ⟨e, rest, rfl⟩ := List.exists_cons_of_ne_nil hne
  have stop := Grammar.schema_atEnd run
  rw [peeks_atEnd _ e rest (ParseState.ahead_past htokens)] at stop
  have he : e.kind = .endOfInput := by simpa using (Prod.mk.inj stop).1
  rw [ParseState.ahead_start] at htokens
  subst htokens
  cases h.append_cons.1 with
  | last _ _ => exact ⟨ts, e, rfl, he, hts⟩
  | cons _ hn _ => exact absurd he hn

/-- An option begins with no option. -/
theorem Node.InFront.before {n m : Node} (h : n.InFront m) (hm : m.optionName?.isSome) :
    n.position.Before m.position := by
  rcases h with h | ⟨-, _, _, -, -, rfl⟩
  · exact h
  · cases hm

/-- A schema that is read from a source is written by its tokens up to the end token. Each of
its nodes is written by some of them, from the one on that stands at the position of the node.
Walked through depth first, the nodes stand one behind the other; two of them stand at one
position only if the first is an option in brackets and the second the first part of its name.
So the names of options come in the order of the source. -/
theorem Schema.ofSource_nodes {source : List Char} {f : Schema}
    (h : Schema.ofSource source = .ok f) :
    ∃ ts e, tokenize source = .ok (ts ++ [e]) ∧ e.kind = .endOfInput ∧
      ts ∈ Rendering.schema True f ∧
      (∀ n ∈ f.nodes, ∃ us t ws vs, ts = us ++ t :: ws ++ vs ∧ t :: ws ∈ n.rendering ∧
        n.position = t.position) ∧
      f.nodes.Pairwise (fun n m => n.position.Before m.position ∨
        n.position = m.position ∧ n.BeginsWith m) ∧
      f.optionNames = (f.nodes.filter (·.optionName?.isSome)).filterMap Node.optionName? ∧
      (f.nodes.filter (·.optionName?.isSome)).Pairwise
        fun n m => n.position.Before m.position := by
  obtain ⟨tokens, ht, ended, hf⟩ := Schema.exists_tokens h
  obtain ⟨ts, e, rfl, he, hts⟩ := Schema.exists_end ended hf
  have lies := Rendering.walks_schema f ts hts (tokenize_increasing ht).append.1
  refine ⟨ts, e, ht, he, hts, fun n hn => ?_, lies.ordered, ?_, ?_⟩
  · obtain ⟨ws, hws, us, vs, rfl⟩ := lies.written n hn
    obtain ⟨t, ws, rfl, hp⟩ := Node.exists_first hws
    exact ⟨us, t, ws, vs, rfl, hws, hp.symm⟩
  · rw [← optionNames_schema, List.filterMap_filter]
    apply List.filterMap_congr
    intro n _
    cases n.optionName? <;> rfl
  · have ordered := lies.ordered.filter (·.optionName?.isSome)
    refine ordered.imp_of_mem fun _ hm before => ?_
    exact before.before (List.mem_filter.mp hm).2

/-- The tiles of `package a;`, at the start or behind other characters. -/
theorem Lexicon.tiling_package (before : List Char) : Tiling before "package a;".toList
    [⟨[], "package".toList, tokenOf .identifier "package" (positionAfter before)⟩,
      ⟨[' '], ['a'], tokenOf .identifier "a" (positionAfter (before ++ "package ".toList))⟩,
      ⟨[], [';'], tokenOf .semicolon ";" (positionAfter (before ++ "package a".toList))⟩,
      ⟨[], [], tokenOf .endOfInput [] (positionAfter (before ++ "package a;".toList))⟩]
        none := by
  have package : LongestLexeme "package".toList .identifier "package" [' ', 'a', ';'] :=
    @longest_identifier 'p' "ackage a;".toList _ (by decide) (by decide)
  have name : LongestLexeme ['a'] .identifier "a" [';'] :=
    @longest_identifier 'a' [';'] _ (by decide) (by decide)
  have mark : IsLexeme [';'] .semicolon ";" := .mark (by decide)
  have last : LongestLexeme [';'] .semicolon ";" [] := mark.longest nofun
  have finish : Tiling (before ++ "package a;".toList) [] _ none :=
    .finish (longestTrivia_of_stuck .nil stuck_nil)
  have semicolon : Tiling (before ++ "package a".toList) ([';'] ++ []) _ none :=
    last.next (fun _ => nofun) _ (by simpa using finish)
  have blank : TriviaRun [' '] (['a'] ++ [';']) := (Filler.blank (by decide) .nil).isRun
  have behind : Tiling (before ++ "package".toList) ([' '] ++ (['a'] ++ [';'])) _ none :=
    name.tile blank nofun (by simpa using semicolon)
  have whole : Tiling before ("package".toList ++ [' ', 'a', ';']) _ none :=
    package.next nofun before behind
  simpa using whole

/-- The tokens of `package a;`. -/
def packageTokens : List Token :=
  [⟨.identifier, "package", ⟨1, 1⟩, false⟩, ⟨.identifier, "a", ⟨1, 9⟩, false⟩,
    ⟨.semicolon, ";", ⟨1, 10⟩, false⟩, ⟨.endOfInput, [], ⟨1, 11⟩, false⟩]

theorem tokenize_package : tokenize "package a;".toList = .ok packageTokens := by
  rw [(Lexicon.tiling_package []).tokenize rfl]
  decide

theorem Schema.ofSource_package :
    Schema.ofSource "package a;".toList = .ok ⟨none, [.package ⟨"a", ⟨1, 1⟩⟩]⟩ := by
  rw [Schema.ofSource, tokenize_package]
  with_unfolding_all rfl

/-- A message with a field that has an option. -/
def nestedSource : List Char := "message M\x7bM f=1[o=1];\x7d".toList

/-- The part of the option's name in it. -/
def nestedPart : OptionNamePart := ⟨"o", false, ⟨1, 17⟩⟩

/-- The value of the option in it. -/
def nestedValue : ScalarValue := ⟨.integer 1, ⟨1, 19⟩⟩

/-- The option in it. -/
def nestedOption : CompactOption := ⟨[nestedPart], .scalar nestedValue, ⟨1, 17⟩⟩

/-- The field in it. -/
def nestedField : FieldDecl := ⟨none, "M", "f", 1, [nestedOption], ⟨1, 11⟩⟩

/-- The message. -/
def nestedMessage : MessageDecl := ⟨"M", [.member (.field nestedField)], ⟨1, 1⟩⟩

/-- Is a schema that message and nothing else? -/
def Schema.isNested : Schema → Bool
  | ⟨none, [.message ⟨name, [.member (.field
      ⟨none, type, field, number, [⟨[part], .scalar value, option⟩], start⟩)], first⟩]⟩ =>
    name = "M" ∧ type = "M" ∧ field = "f" ∧ number = 1 ∧ part = nestedPart ∧
      value = nestedValue ∧ option = ⟨1, 17⟩ ∧ start = ⟨1, 11⟩ ∧ first = ⟨1, 1⟩
  | _ => false

theorem Schema.eq_of_isNested {s : Schema} (h : s.isNested = true) :
    s = ⟨none, [.message nestedMessage]⟩ := by
  unfold isNested at h
  split at h
  · obtain ⟨rfl, rfl, rfl, rfl, rfl, rfl, rfl, rfl, rfl⟩ := of_decide_eq_true h
    rfl
  · cases h

theorem Schema.ofSource_nested :
    Schema.ofSource nestedSource = .ok ⟨none, [.message nestedMessage]⟩ := by
  have nested : (Schema.ofSource nestedSource).toOption.map isNested = some true := by
    decide +kernel
  obtain ⟨s, read, hs⟩ := Option.map_eq_some_iff.mp nested
  obtain rfl := eq_of_isNested hs
  cases h : Schema.ofSource nestedSource with
  | error e => simp [h, Except.toOption] at read
  | ok s =>
    rw [h] at read
    exact congrArg Except.ok (Option.some.inj read)

/-- The walk through it: the option and the part of its name stand at one position, all other
nodes one behind the other. -/
theorem Schema.ofSource_nodes_nested :
    Schema.nodes ⟨none, [.message nestedMessage]⟩ =
      [.message nestedMessage, .field nestedField,
      .compactOption nestedOption, .namePart nestedPart, .scalar nestedValue] ∧
    ∃ ts e, tokenize nestedSource = .ok (ts ++ [e]) ∧ e.kind = .endOfInput ∧
      (∀ n ∈ Schema.nodes ⟨none, [.message nestedMessage]⟩, ∃ us t ws vs,
        ts = us ++ t :: ws ++ vs ∧ t :: ws ∈ n.rendering ∧ n.position = t.position) ∧
      (Schema.nodes ⟨none, [.message nestedMessage]⟩).Pairwise (fun n m =>
        n.position.Before m.position ∨ n.position = m.position ∧ n.BeginsWith m) ∧
      Schema.optionNames ⟨none, [.message nestedMessage]⟩ = ["o"] := by
  obtain ⟨ts, e, ht, he, -, written, ordered, names, -⟩ :=
    Schema.ofSource_nodes Schema.ofSource_nested
  exact ⟨rfl, ts, e, ht, he, written, ordered, names.trans rfl⟩

end ProtoSchema
