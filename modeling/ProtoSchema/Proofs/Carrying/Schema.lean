import ProtoSchema.Proofs.Carrying.Declaration
import ProtoSchema.Grammar.Schema

/-!
# What the production for a schema depends on

The productions for services and for the top level do the same on other lists with the same
tokens, up to positions. Whether a method's type is marked as a stream is seen from two
tokens.
-/
namespace ProtoSchema.Grammar

open Parse Transfer

variable {w : Transfer}

/-! ## Services -/

/-- A method's type behind the first parenthesis. -/
def typeBehind (streaming : Bool) : Parse (Bool × Text) := do
  let type ← typeName
  consumeMark .rightParen ")"
  return (streaming, type)

/-- A method's type behind the first parenthesis, where the word `stream` is the next
token. -/
def streamBehind (streaming : Bool) : Parse (Bool × Text) :=
  if streaming then advance >>= fun _ => typeBehind streaming else typeBehind streaming

/-- What a method's type has in parentheses, with the closing one. -/
def enclosedType : Parse (Bool × Text) := do
  if ← checkKeyword "stream" then
    let behind ← look 1
    streamBehind (decide (behind.kind ≠ .rightParen))
  else typeBehind false

/-- A method's type behind the parenthesis takes the token its name starts with. -/
theorem enters_typeBehind (streaming : Bool) :
    w.Enters (fun t => t.kind = .dot ∨ t.kind = .identifier) id (typeBehind streaming)
      (typeBehind streaming) :=
  (enters_typeName fun _ => id).bind fun _ => (carries_consumeMark _ _).yield fun _ => rfl

/-- The two ways of reading what is behind the parenthesis. -/
theorem carries_streamBehind (streaming : Bool) :
    w.Carries id (streamBehind streaming) (streamBehind streaming) := by
  cases streaming with
  | true => exact carries_advance.bind fun _ => (enters_typeBehind true).carries
  | false => exact (enters_typeBehind false).carries

section Rejected

variable {s : ParseState} {t : Token} {rest : List Token}

/-- A token that starts no name is rejected where it stands. -/
theorem typeBehind_error (ht : s.ahead = t :: rest) (dot : t.kind ≠ .dot)
    (name : t.kind ≠ .identifier) (streaming : Bool) : typeBehind streaming s =
      (.error (.unexpected ⟨.expected [.typeName], s.rules.head?, t⟩), s) :=
  bind_of_error (typeName_error ht dot name)

/-- An end token is rejected whatever stands behind it. -/
theorem streamBehind_end (ht : s.ahead = t :: rest) (hend : t.kind = .endOfInput) :
    (look 1 >>= fun u => streamBehind (decide (u.kind ≠ .rightParen))) s =
      reject (.expected [.typeName]) s := by
  obtain ⟨u, hu⟩ := look_one_ok (ParseState.index_lt ht)
  have rejected (b : Bool) := typeBehind_error ht (hend ▸ nofun) (hend ▸ nofun) b
  rw [bind_of_ok hu, reject_eq ht]
  cases decide (u.kind ≠ .rightParen) with
  | true => rw [streamBehind, if_pos rfl, bind_of_ok (advance_end ht hend), rejected]
  | false => exact rejected false

end Rejected

section Enclosed

variable {s : ParseState} {t u : Token} {rest : List Token} {start : ℕ}
  (hopen : ∃ p ∈ s.tokens[s.index - 1]?, p.kind = .leftParen) (hstart : start < s.index)

include hopen hstart

/-- What is marked as the word `stream` behind a parenthesis is taken, or it is falsely
marked. -/
theorem streamBehind_index_lt (hs : s.tokens = w.source) (hb : s.Bounded)
    (ht : s.ahead = t :: u :: rest) (soft : t.soft = true)
    (text : t.text = Text.ofString "stream") (hend : t.kind ≠ .endOfInput)
    (clean : Clean start (streamBehind (decide (u.kind ≠ .rightParen)) s)) :
    s.index < (streamBehind (decide (u.kind ≠ .rightParen)) s).2.index := by
  by_cases hu : u.kind = .rightParen
  · rw [decide_eq_false (not_not_intro hu)] at clean ⊢
    by_cases hname : t.kind = .dot ∨ t.kind = .identifier
    · exact (enters_typeBehind false).enters s t _ hs hb ht hname
    · obtain ⟨dot, name⟩ := not_or.mp hname
      have run : streamBehind false s = _ := typeBehind_error ht dot name false
      rw [run] at clean
      have behind : s.tokens[s.index + 1]? = some u :=
        ParseState.getElem?_of_ahead (s := s.past 1) (ParseState.ahead_past_one ht)
      exact absurd ⟨rfl, ⟨soft, text, name, hend⟩, hstart, hopen, u, behind, hu⟩ (clean _ rfl)
  · rw [decide_eq_true hu]
    have taken : streamBehind true s = typeBehind true (s.past 1) :=
      bind_of_ok (advance_eq ht hend)
    rw [taken]
    exact (enters_typeBehind true).carries.index_lt hs (hb.past_one ht hend)

/-- A run from `start` that has just taken the opening parenthesis. -/
theorem along_enclosedType (hs : s.tokens = w.source) (hb : s.Bounded) :
    w.Along start id s (enclosedType s) (enclosedType (s.on w.target)) := by
  obtain ⟨t, rest, ht⟩ := hb.exists_cons
  apply Along.peek (peeks_checkKeyword "stream") (fun _ _ => rfl) hs ht
  cases marked : t.soft && decide (t.text = Text.ofString "stream") with
  | false => exact ((enters_typeBehind false).carries s hs hb).mono (Nat.le_of_lt hstart)
  | true =>
    obtain ⟨soft, text⟩ := (Bool.and_eq_true _ _).mp marked
    by_cases hend : t.kind = .endOfInput
    · apply ((carries_reject (.expected [.typeName]) s hs hb).mono
        (Nat.le_of_lt hstart)).of_next hs ht
      · exact streamBehind_end ht hend
      · exact fun rest' ht' => streamBehind_end ht' hend
    · obtain ⟨u, rest', hu⟩ := (hb.past_one ht hend).exists_cons
      rw [ParseState.ahead_past_one ht] at hu
      subst hu
      apply Along.look hs hb ht (Nat.le_of_lt hstart) (carries_streamBehind _)
      exact streamBehind_index_lt hopen hstart hs hb ht soft (of_decide_eq_true text) hend

end Enclosed

/-- A method's type. The second token is looked at only where the parenthesis was taken. -/
theorem carries_methodType : w.Carries id methodType methodType := by
  intro s hs hb
  apply (carries_consumeMark .leftParen "(" s hs hb).bind
  intro _ l run hlb
  obtain ⟨t, rest, ht⟩ := hb.exists_cons
  have opened : t.kind = .leftParen ∧ s.past l = s.past 1 := consumeMark_ok ht (by decide) run
  obtain rfl : l = 1 := by
    have : s.index + l = s.index + 1 := congrArg ParseState.index opened.2
    omega
  exact along_enclosedType ⟨t, ParseState.getElem?_of_ahead ht, opened.1⟩
    (Nat.lt_succ_self s.index) hs hlb

theorem carries_methodElement :
    w.Carries (Option.map (·.relocate w.move)) methodElement methodElement := by
  apply Carries.accept
  · exact .pure rfl
  apply Carries.keyword
  · exact carries_optionStatement.yield fun _ => rfl
  · exact carries_reject _

/-- A method, with a semicolon or a block of options behind it. -/
theorem carries_methodDecl : w.Carries (·.relocate w.move) methodDecl methodDecl := by
  refine .within
    ((carries_consumeWord _).bind fun t => (carries_consumeName _).bind fun x => ?_)
  refine carries_methodType.bind fun input => (carries_consumeWord _).bind fun _ => ?_
  refine carries_methodType.bind fun output => ?_
  apply Carries.check
  · exact (carries_body carries_methodElement).yield fun os => rfl
  apply Carries.accept
  · exact .pure rfl
  · exact (carries_reject (f := List.map (·.relocate w.move)) _).yield fun os => rfl

theorem carries_serviceElement :
    w.Carries (Option.map (·.relocate w.move)) serviceElement serviceElement := by
  apply Carries.accept
  · exact .pure rfl
  apply Carries.keyword
  · exact carries_optionStatement.yield fun _ => rfl
  apply Carries.word
  · exact carries_methodDecl.yield fun _ => rfl
  · exact carries_reject _

theorem carries_serviceDecl : w.Carries (·.relocate w.move) serviceDecl serviceDecl := by
  refine .within
    ((carries_consumeWord _).bind fun t => (carries_consumeName _).bind fun x => ?_)
  exact (carries_body carries_serviceElement).yield fun es => rfl

/-! ## Schemas -/

theorem carries_syntaxDecl : w.Carries (·.relocate w.move) syntaxDecl syntaxDecl := by
  refine .within
    ((carries_consumeWord _).bind fun t => (carries_consumeMark _ _).bind fun _ => ?_)
  exact (carries_stringLiteral _).bind fun x => (carries_consumeMark _ _).yield fun _ => rfl

/-- The word behind `import` is seen in the next token. -/
theorem carries_importModifier : w.Carries id importModifier importModifier := by
  apply Carries.word
  · exact carries_advance.yield fun _ => rfl
  apply Carries.word
  · exact carries_advance.yield fun _ => rfl
  · exact .pure rfl

theorem carries_importDecl : w.Carries (·.relocate w.move) importDecl importDecl := by
  refine .within
    ((carries_consumeWord _).bind fun t => carries_importModifier.bind fun m => ?_)
  exact (carries_stringLiteral _).bind fun x => (carries_consumeMark _ _).yield fun _ => rfl

theorem carries_packageDecl : w.Carries (·.relocate w.move) packageDecl packageDecl := by
  refine .within
    ((carries_consumeWord _).bind fun t => carries_qualifiedIdentifier.bind fun x => ?_)
  exact (carries_consumeMark _ _).yield fun _ => rfl

theorem carries_schemaElement :
    w.Carries (Option.map (·.relocate w.move)) schemaElement schemaElement := by
  apply Carries.accept
  · exact .pure rfl
  apply Carries.word
  · exact carries_importDecl.yield fun _ => rfl
  apply Carries.word
  · exact carries_packageDecl.yield fun _ => rfl
  apply Carries.keyword
  · exact carries_optionStatement.yield fun _ => rfl
  apply Carries.keyword
  · exact (carries_messageDeclOf carries_messageElement).yield fun _ => rfl
  apply Carries.keyword
  · exact carries_enumDecl.yield fun _ => rfl
  apply Carries.keyword
  · exact (carries_extensionDeclOf carries_messageElement).yield fun _ => rfl
  apply Carries.word
  · exact carries_serviceDecl.yield fun _ => rfl
  · exact carries_reject _

/-- A whole schema. -/
theorem carries_schema : w.Carries (·.relocate w.move) schema schema := by
  have more : w.Carries id (return !(← atEnd)) (return !(← atEnd)) :=
    .peek_last (peeks_atEnd.bind_pure (! ·)) fun _ _ => rfl
  have elements (d : Option SyntaxDecl) : w.Carries (·.relocate w.move)
      (do
        let es ← whileMore (return !(← atEnd)) schemaElement
        return (⟨d, es.filterMap id⟩ : Schema))
      (do
        let es ← whileMore (return !(← atEnd)) schemaElement
        return (⟨d.map (·.relocate w.move), es.filterMap id⟩ : Schema)) := by
    apply (more.whileMore carries_schemaElement).yield
    intro es
    rw [List.filterMap_map, Schema.relocate, List.map_filterMap]
    rfl
  apply Carries.word
  · exact carries_syntaxDecl.bind fun d => elements (some d)
  · exact elements none

end ProtoSchema.Grammar
