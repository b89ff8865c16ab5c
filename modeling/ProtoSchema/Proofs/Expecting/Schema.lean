import ProtoSchema.Proofs.Carrying.Schema
import ProtoSchema.Proofs.Expecting.Declaration
import ProtoSchema.Proofs.Taking.Schema

/-!
# What services and schemas expect

The productions for services and for the top level, in the order of their definitions. A whole
schema is followed by a step that fails, as only runs that fail are compared at the top level.
-/
namespace ProtoSchema.Grammar

open Parse Fork

variable {w : Fork} {n : ℕ} {pre firm : Token → Prop}

/-! ## Services -/

/-- The type behind `stream`, or without it. -/
theorem sincere_typeBehind (streaming : Bool) : w.Sincere n pre
    (fun t => t.kind = .dot ∨ t.kind = .identifier) (typeBehind streaming)
      (typeBehind streaming) :=
  sincere_typeName.bind fun _ _ => .yield (.loose (sincere_mark nofun rfl))

/-- A type of one word is taken together with the parenthesis behind it. -/
theorem typeBehind_index {s : ParseState} {t u : Token} {rest : List Token}
    (hs : Ended s.ahead) (h : s.ahead = t :: u :: rest) (name : t.kind = .identifier)
    (close : u.kind = .rightParen) : (typeBehind false s).2.index = s.index + 2 := by
  have behind : rest ≠ [] := by
    rw [h] at hs
    exact ((hs.tail (name ▸ nofun)).tail (close ▸ nofun)).ne_nil
  have word : [t] ∈ Rendering.typeName (Text.join "." [t.text]) :=
    .inl ⟨[t.text], rfl, [t], ⟨t, ⟨name, rfl⟩, rfl⟩, [], rfl, rfl⟩
  obtain ⟨_, run, -⟩ := takes_typeBehind word close false s le_rfl hs h behind
  rw [show typeBehind false s = _ from run]
  rfl

/-- Directly in front of the closing parenthesis `stream` is a type, and anywhere else a word
in front of one. -/
theorem sincere_methodType : w.Sincere n pre (·.kind = .leftParen) methodType methodType := by
  have looked {A : Token → Prop} : w.Sincere n (fun t => A t ∧ t.IsWord "stream") ⊤
      (look 1 >>= fun u => streamBehind (decide (u.kind ≠ .rightParen)))
      (look 1 >>= fun u => streamBehind (decide (u.kind ≠ .rightParen))) := by
    simp only [ne_eq, decide_not]
    refine sincere_look (F := fun b => streamBehind !b) (G := fun b => streamBehind !b)
      (fun _ _ ht => ht.2.ne_end) (fun b => ?_) fun s t u rest hend hs ht hu => ?_
    · cases b
      · exact .advance_bind (fun _ _ ht => ht.2.ne_end) fun _ _ _ =>
          (sincere_typeBehind true).loose
      · exact (sincere_typeBehind false).takes fun _ ht => .inr ht.2.1
    · have taken := (typeBehind_index hend hs ht.2.1 (of_decide_eq_true hu)).ge
      exact ⟨taken, taken⟩
  exact .bind (sincere_mark nofun rfl) fun _ _ =>
    .keyword (by decide) looked (sincere_typeBehind false).loose

/-- In the body of a method an option or an empty statement may stand. -/
theorem sincere_methodElement :
    w.Sincere n (fun t => t.kind ≠ .rightBrace ∧ t.kind ≠ .endOfInput) ⊥
    methodElement methodElement := by
  refine .accept (by decide) (.pure _ _) (.keyword (by decide) ?_ ?_)
  · exact .yield (sincere_optionStatement fun _ _ ht => ht.2.ne_end)
  · refine sincere_expect fun t ht => ⟨id, fun x hx fits => ?_⟩
    obtain ⟨⟨⟨close, -⟩, semicolon⟩, option⟩ := ht
    simp only [List.mem_cons, List.not_mem_nil, or_false] at hx
    rcases hx with rfl | rfl | rfl
    · exact option (fits.spelling rfl)
    · exact semicolon (List.mem_singleton.mpr (fits.spelling rfl).1)
    · exact close (fits.spelling rfl).1

theorem sincere_methodDecl : w.Sincere n pre (·.IsWord "rpc") methodDecl methodDecl := by
  refine .within (.bind (sincere_consumeWord rfl) fun t u => ?_)
  refine sincere_consumeName.loose.bind fun x y => ?_
  refine sincere_methodType.loose.bind fun i j =>
    .bind (.loose (sincere_consumeWord rfl)) fun _ _ => ?_
  refine sincere_methodType.loose.bind fun o p =>
    .check ?_ (.accept (by decide) (.pure _ _) ?_)
  · exact .yield ((sincere_body sincere_methodElement).takes fun _ => And.right)
  · refine .yield (sincere_expect fun t ht => ⟨id, fun x hx fits => ?_⟩)
    rcases List.mem_pair.mp hx with rfl | rfl
    · exact ht.2 (List.mem_singleton.mpr (fits.spelling rfl).1)
    · exact ht.1.2 (fits.spelling rfl).1

theorem sincere_serviceElement :
    w.Sincere n (fun t => t.kind ≠ .rightBrace ∧ t.kind ≠ .endOfInput) ⊥
    serviceElement serviceElement := by
  refine .accept (by decide) (.pure _ _) (.keyword (by decide) ?_ (.word ?_ ?_))
  · exact .yield (sincere_optionStatement fun _ _ ht => ht.2.ne_end)
  · exact .yield (sincere_methodDecl.takes fun _ => And.right)
  · refine sincere_expect fun t ht => ⟨id, fun x hx fits => ?_⟩
    obtain ⟨⟨⟨⟨close, -⟩, semicolon⟩, option⟩, rpc⟩ := ht
    simp only [List.mem_cons, List.not_mem_nil, or_false] at hx
    rcases hx with rfl | rfl | rfl | rfl
    · exact rpc (fits.spelling rfl)
    · exact option (fits.spelling rfl)
    · exact semicolon (List.mem_singleton.mpr (fits.spelling rfl).1)
    · exact close (fits.spelling rfl).1

theorem sincere_serviceDecl :
    w.Sincere n pre (·.IsWord "service") serviceDecl serviceDecl := by
  refine .within (.bind (sincere_consumeWord rfl) fun t u => ?_)
  refine sincere_consumeName.loose.bind fun x y => ?_
  exact .yield (.loose (sincere_body sincere_serviceElement))

/-! ## Schemas -/

theorem sincere_syntaxDecl : w.Sincere n pre (·.IsWord "syntax") syntaxDecl syntaxDecl := by
  refine .within (.bind (sincere_consumeWord rfl) fun t u => ?_)
  refine .bind (.loose (sincere_mark nofun rfl)) fun _ _ => ?_
  exact sincere_stringLiteral.loose.bind fun x y => .yield (.loose (sincere_mark nofun rfl))

/-- That an import may be marked is not said where its path is expected. -/
theorem sincere_importModifier : w.Sincere n pre ⊥ importModifier importModifier := by
  refine .word (.yield (sincere_advance fun _ _ ht => ht.2.ne_end))
    (.word ?_ (.pure none none))
  exact .yield (sincere_advance fun _ _ ht => ht.2.ne_end)

theorem sincere_importDecl : w.Sincere n pre (·.IsWord "import") importDecl importDecl := by
  refine .within
    (.bind (sincere_consumeWord rfl) fun t u => sincere_importModifier.bind fun m m' => ?_)
  exact sincere_stringLiteral.loose.bind fun x y => .yield (.loose (sincere_mark nofun rfl))

theorem sincere_packageDecl :
    w.Sincere n pre (·.IsWord "package") packageDecl packageDecl := by
  refine .within (.bind (sincere_consumeWord rfl) fun t u => ?_)
  refine sincere_qualifiedIdentifier.loose.bind fun x y => ?_
  exact .yield (.loose (sincere_mark nofun rfl))

/-- All statements that may stand at the top level are named. -/
theorem sincere_schemaElement : w.Sincere n pre ⊥ schemaElement schemaElement := by
  refine .accept (by decide) (.pure _ _) (.word ?_ (.word ?_ (.keyword (by decide) ?_
    (.keyword (by decide) ?_
      (.keyword (by decide) ?_ (.keyword (by decide) ?_ (.word ?_ ?_)))))))
  · exact .yield (sincere_importDecl.takes fun _ => And.right)
  · exact .yield (sincere_packageDecl.takes fun _ => And.right)
  · exact .yield (sincere_optionStatement fun _ _ ht => ht.2.ne_end)
  · exact .yield (sincere_messageDeclOf sincere_messageElement fun _ _ ht => ht.2.ne_end)
  · exact .yield (sincere_enumDecl fun _ _ ht => ht.2.ne_end)
  · exact .yield (sincere_extensionDeclOf sincere_messageElement fun _ _ ht => ht.2.ne_end)
  · exact .yield (sincere_serviceDecl.takes fun _ => And.right)
  · refine sincere_expect fun t ht => ⟨id, fun x hx fits => ?_⟩
    obtain ⟨⟨⟨⟨⟨⟨⟨⟨-, semicolon⟩, importing⟩, package⟩, option⟩, message⟩, enum⟩, extend⟩,
        service⟩ := ht
    simp only [List.mem_cons, List.not_mem_nil, or_false] at hx
    rcases hx with rfl | rfl | rfl | rfl | rfl | rfl | rfl | rfl
    · exact importing (fits.spelling rfl)
    · exact package (fits.spelling rfl)
    · exact option (fits.spelling rfl)
    · exact message (fits.spelling rfl)
    · exact enum (fits.spelling rfl)
    · exact extend (fits.spelling rfl)
    · exact service (fits.spelling rfl)
    · exact semicolon (List.mem_singleton.mpr (fits.spelling rfl).1)

/-- A schema behind the statement of its level. -/
def elementsBehind (level : Option SyntaxDecl) : Parse Schema := do
  let elements ← whileMore (return !(← atEnd)) schemaElement
  return ⟨level, elements.filterMap id⟩

/-- A whole schema behind which every token is rejected. -/
theorem sincere_schema {α : Type} :
    w.Sincere n ⊤ ⊥ (schema >>= fun _ => (expect [] : Parse α))
    (schema >>= fun _ => (expect [] : Parse α)) := by
  have behind (l l' : Option SyntaxDecl) :
      w.Sincere n ⊤ ⊥ (elementsBehind l >>= fun _ => (expect [] : Parse α))
        (elementsBehind l' >>= fun _ => expect []) := by
    rw [elementsBehind, elementsBehind, bind_assoc, bind_assoc]
    exact .untilEnd sincere_schemaElement (fun _ => rfl) fun _ => rfl
  rw [schema, bind_assoc]
  refine .word ?_ (behind none none).loose
  show w.Sincere n _ _ ((syntaxDecl >>= fun d => elementsBehind (some d)) >>= _)
    ((syntaxDecl >>= fun d => elementsBehind (some d)) >>= _)
  rw [bind_assoc]
  exact (sincere_syntaxDecl.takes fun _ => And.right).bind fun d d' =>
    behind (some d) (some d')

end ProtoSchema.Grammar
