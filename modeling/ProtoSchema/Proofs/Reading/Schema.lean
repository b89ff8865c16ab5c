import ProtoSchema.Proofs.Reading.Message
import ProtoSchema.Proofs.Taking.Name
import ProtoSchema.Grammar.Schema

/-!
# Reading services and schemas

What the productions for services and for the top level read.
-/
namespace ProtoSchema.Grammar

open Parse Rendering

variable {placed : Prop} {n : ℕ} {pre : Token → Prop}

/-! ## Services -/

/-- The rest of a type in parentheses. -/
theorem reads_typeBehind {K : Text → Language Token} (streaming : Bool)
    (hK : Reads placed n pre Grammar.typeName K) : Reads placed n pre
    (do
      let type ← Grammar.typeName
      consumeMark .rightParen ")"
      return (streaming, type))
    fun r => {ts | r.1 = streaming ∧ ts ∈ [K r.2, mark .rightParen].prod} :=
  .bind hK fun _ _ hu _ => .yield (reads_consumeMark _ _ rfl) fun _ _ hv =>
    ⟨rfl, append_mem_prod hu (mem_singleton_prod hv)⟩

/-- A word can be the name of a type. -/
theorem mem_typeName_of_word {t : Token} {w : String} (ht : t.IsWord w) :
    [t] ∈ Rendering.typeName t.text := by
  have first : [t] ∈ Rendering.identifier t.text := ⟨t, ⟨ht.1, rfl⟩, rfl⟩
  exact .inl ⟨[t.text], rfl, Language.append_mem_mul first Language.nil_mem_one⟩

/-- `stream` with the closing parenthesis behind it is a type. -/
theorem takes_streamType {t u : Token} {rest : List Token} (ht : t.IsWord "stream")
    (hu : u.kind = .rightParen) : Takes n
    (do
      let type ← Grammar.typeName
      consumeMark .rightParen ")"
      return (false, type))
    [t, u] rest (· = (false, t.text)) := by
  refine .cons (takes_typeName (mem_typeName_of_word ht) (by simp [hu])) fun x hx => ?_
  exact (takes_consumeMark ⟨u, hu, rfl⟩ _ rfl).yield fun _ _ => by rw [hx]

/-- The type of what a method takes or gives. The word `stream` is the name of a type itself
unless the name of one stands behind it. -/
theorem reads_methodType : Reads placed n pre Grammar.methodType fun r =>
    Rendering.methodType r.1 r.2 := by
  refine .bind (reads_consumeMark _ _ rfl) fun _ us hleft _ => .keyword rfl ?_ fun _ => ?_
  · have streaming : Reads placed (n - us.length) (fun t => True ∧ t.IsWord "stream")
        (do
          let _ ← advance
          let type ← Grammar.typeName
          consumeMark .rightParen ")"
          return (true, type))
        (after us fun r => Rendering.methodType r.1 r.2) := by
      refine .bind (reads_advance_word fun _ _ h => h.2) fun t vs ht _ => ?_
      obtain ⟨t, ⟨ht, rfl⟩, rfl⟩ := ht
      refine (reads_typeBehind true reads_typeName).mono fun r ws hw => ?_
      show us ++ ([t] ++ ws) ∈ Rendering.methodType r.1 r.2
      rw [hw.1]
      exact append_mem_prod hleft (append_mem_prod ⟨t, ht, rfl⟩ hw.2)
    refine ⟨streaming.completable, fun s hs hle hpre => ?_⟩
    obtain ⟨t, ahead, ht⟩ := List.exists_cons_of_ne_nil hs.ne_nil
    have hw : t.IsWord "stream" := (hpre t (by simp [ht])).2
    have tail := (ht ▸ hs).tail (by simp [hw.1])
    obtain ⟨u, rest, rfl⟩ := List.exists_cons_of_ne_nil tail.ne_nil
    have next : look 1 s = (.ok u, s) := look_eq (show s.ahead = [t] ++ u :: rest from ht)
    show Outcome placed _ s ((look 1 >>= _) s)
    rw [bind_of_ok next]
    by_cases hu : u.kind = .rightParen
    · have hrest := (tail.tail (by simp [hu])).ne_nil
      obtain ⟨_, hr, rfl⟩ := takes_streamType hw hu s hle hs ht hrest
      suffices h : Outcome placed (after us fun r => Rendering.methodType r.1 r.2) s
          (.ok (false, t.text), s.past [t, u].length) by
        rw [← hr] at h
        rw [decide_eq_false (by simpa using hu)]
        exact h
      refine ⟨[t, u], rest, ht, hrest, rfl, ?_, by simp [hw.1, hu]⟩
      have type : [t] ∈ word "stream" ⊓ Rendering.typeName t.text +
          notStarting ["stream"] (Rendering.typeName t.text) :=
        .inl ⟨⟨t, hw, rfl⟩, mem_typeName_of_word hw⟩
      have right : [u] ∈ mark .rightParen := ⟨u, hu, rfl⟩
      exact append_mem_prod hleft (append_mem_prod type (mem_singleton_prod right))
    · rw [decide_eq_true hu]
      exact streaming.run s hs hle hpre
  · have type :
        Reads placed (n - us.length) (fun t => True ∧ ¬t.IsWord "stream") Grammar.typeName
        fun x => notStarting ["stream"] (Rendering.typeName x) :=
      reads_typeNameNot (by simp) (by decide)
    refine (reads_typeBehind false type).mono fun r ws hw => ?_
    show us ++ ws ∈ Rendering.methodType r.1 r.2
    obtain ⟨hr, vs, hv, ws, hw, rfl⟩ := hw
    rw [hr]
    exact append_mem_prod hleft (append_mem_prod (.inr hv) hw)

theorem reads_methodElement :
    Reads placed n pre methodElement (statement (Rendering.optionStatement placed)) := by
  refine .accept rfl (fun t ht _ => reads_none ht) fun _ => .keyword rfl ?_ fun h => .reject h
  exact .yield (reads_optionStatement fun _ _ h => h.2) fun o us hu => hu

/-- A method, which ends in a semicolon or in a block of options. -/
theorem reads_methodDecl : Reads placed n pre methodDecl (Rendering.methodDecl placed) := by
  refine .within (.bind (reads_consumeWord _) fun t us ht _ => ?_)
  obtain ⟨t, ⟨ht, rfl⟩, rfl⟩ := ht
  refine .bind (reads_consumeName _) fun x us h₁ _ =>
    .bind reads_methodType fun a us h₂ _ => ?_
  refine .bind (reads_consumeWord _) fun u us hu _ =>
    .bind reads_methodType fun b us h₃ _ => ?_
  obtain ⟨u, ⟨hu, rfl⟩, rfl⟩ := hu
  have mem {os : List OptionStatement} {vs : List Token} (hv : vs ∈ methodEnd placed os) :=
    append_mem_prod (L := word "rpc") ⟨t, ht, rfl⟩ (append_mem_prod h₁ (append_mem_prod h₂
      (append_mem_prod (L := word "returns") ⟨u, hu, rfl⟩
        (append_mem_prod h₃ (mem_singleton_prod hv)))))
  refine .test (peeks_check _) ?_ fun _ => .accept rfl (fun v hv _ => ?_) fun h =>
    .reject_bind h
  · refine .yield (reads_statements reads_methodElement (nil_notMem_optionStatement placed))
      fun os vs hv => ⟨mem (.inl hv), fun _ => ⟨t, rfl, rfl⟩⟩
  · exact .pure ⟨mem (.inr ⟨v, by simpa using hv, rfl⟩), fun _ => ⟨t, rfl, rfl⟩⟩

/-- An element of a service, or a lone semicolon. -/
theorem reads_serviceElement :
    Reads placed n pre serviceElement (statement (Rendering.serviceElement placed)) := by
  refine .accept rfl (fun t ht _ => reads_none ht) fun _ => .keyword rfl ?_ fun _ =>
    .word ?_ fun h => .reject h
  · exact .yield (reads_optionStatement fun _ _ h => h.2) fun o us hu => hu
  · exact .yield reads_methodDecl fun m us hu => hu

theorem reads_serviceDecl :
    Reads placed n pre serviceDecl (Rendering.serviceDecl placed) := by
  refine .within (.bind (reads_consumeWord _) fun t us ht _ => ?_)
  obtain ⟨t, ⟨ht, rfl⟩, rfl⟩ := ht
  refine .bind (reads_consumeName _) fun x us hu _ => ?_
  refine .yield (reads_statements reads_serviceElement (nil_notMem_serviceElement placed))
    fun es vs hv => ⟨?_, fun _ => ⟨t, rfl, rfl⟩⟩
  exact append_mem_prod ⟨t, ht, rfl⟩ (append_mem_prod hu hv)

/-! ## Schemas -/

theorem reads_syntaxDecl : Reads placed n pre syntaxDecl (Rendering.syntaxDecl placed) := by
  refine .within (.bind (reads_consumeWord _) fun t us ht _ => ?_)
  obtain ⟨t, ⟨ht, rfl⟩, rfl⟩ := ht
  refine .bind (reads_consumeMark _ _ rfl) fun _ us h₁ _ =>
    .bind (reads_stringLiteral _) fun x us h₂ _ => ?_
  refine .yield (reads_consumeMark _ _ rfl) fun _ us h₃ => ⟨?_, fun _ => ⟨t, rfl, rfl⟩⟩
  exact append_mem_prod ⟨t, ht, rfl⟩ (append_mem_prod h₁ (append_mem_prod h₂
    (mem_singleton_prod h₃)))

/-- The word behind `import`, if there is one. -/
theorem reads_importModifier :
    Reads placed n pre importModifier Rendering.importModifier := by
  refine .word ?_ fun _ => .word ?_ fun _ => .pure rfl
  all_goals
    refine .yield (reads_advance_word fun _ _ h => h.2) fun t us ht => ?_
    obtain ⟨t, ⟨ht, rfl⟩, rfl⟩ := ht
    exact ⟨t, ht, rfl⟩

/-- An import, which may be public or weak. -/
theorem reads_importDecl : Reads placed n pre importDecl (Rendering.importDecl placed) := by
  refine .within (.bind (reads_consumeWord _) fun t us ht _ => ?_)
  obtain ⟨t, ⟨ht, rfl⟩, rfl⟩ := ht
  refine .bind reads_importModifier fun m us h₁ _ =>
    .bind (reads_stringLiteral _) fun x us h₂ _ => ?_
  refine .yield (reads_consumeMark _ _ rfl) fun _ us h₃ => ⟨?_, fun _ => ⟨t, rfl, rfl⟩⟩
  exact append_mem_prod ⟨t, ht, rfl⟩ (append_mem_prod h₁ (append_mem_prod h₂
    (mem_singleton_prod h₃)))

theorem reads_packageDecl :
    Reads placed n pre packageDecl (Rendering.packageDecl placed) := by
  refine .within (.bind (reads_consumeWord _) fun t us ht _ => ?_)
  obtain ⟨t, ⟨ht, rfl⟩, rfl⟩ := ht
  refine .bind reads_qualifiedIdentifier fun x us h₁ _ => ?_
  refine .yield (reads_consumeMark _ _ rfl) fun _ us h₂ => ⟨?_, fun _ => ⟨t, rfl, rfl⟩⟩
  exact append_mem_prod ⟨t, ht, rfl⟩ (append_mem_prod h₁ (mem_singleton_prod h₂))

theorem reads_messageDecl (hpre : ∀ t : Token, t.WellMade → pre t → t.IsWord "message") :
    Reads placed n pre messageDecl (Rendering.messageDecl placed) :=
  (reads_messageDeclOf reads_messageElement hpre).weaken (Nat.le_succ n) fun _ _ => id

theorem reads_extensionDecl (hpre : ∀ t : Token, t.WellMade → pre t → t.IsWord "extend") :
    Reads placed n pre extensionDecl (Rendering.extensionDecl placed) :=
  (reads_extensionDeclOf reads_messageElement hpre).weaken (Nat.le_succ n) fun _ _ => id

/-- A declaration of a schema, or a lone semicolon. The word it starts with says which. -/
theorem reads_schemaElement :
    Reads placed n pre schemaElement (statement (Rendering.schemaElement placed)) := by
  refine .accept rfl (fun t ht _ => reads_none ht) fun _ => .word ?_ fun _ =>
    .word ?_ fun _ => ?_
  · exact .yield reads_importDecl fun i us hu => hu
  · exact .yield reads_packageDecl fun p us hu => hu
  refine .keyword rfl ?_ fun _ => .keyword rfl ?_ fun _ => .keyword rfl ?_ fun _ => ?_
  · exact .yield (reads_optionStatement fun _ _ h => h.2) fun o us hu => hu
  · exact .yield (reads_messageDecl fun _ _ h => h.2) fun m us hu => hu
  · exact .yield (reads_enumDecl fun _ _ h => h.2) fun e us hu => hu
  refine .keyword rfl ?_ fun _ => .word ?_ fun h => .reject h
  · exact .yield (reads_extensionDecl fun _ _ h => h.2) fun e us hu => hu
  · exact .yield reads_serviceDecl fun e us hu => hu

/-- A whole schema, up to the token that ends the input. -/
theorem reads_schema : Reads placed n pre Grammar.schema (Rendering.schema placed) := by
  have rest (level : Option SyntaxDecl) (us : List Token)
      (hu : us ∈ Rendering.level placed level) :
      Reads placed (n - us.length) (fun _ => True)
        (do
          let elements ← whileMore (return !(← atEnd)) schemaElement
          return ⟨level, elements.filterMap id⟩)
        (after us (Rendering.schema placed)) := by
    have hmore := peeks_atEnd.bind_pure (! ·)
    refine .whileMore_bind (c := 0) (fun s t rest => hmore.eq_ite)
      (fun s hs hle _ => reads_schemaElement.run s hs hle fun _ _ => trivial) (fun a => ?_)
      fun es vs hv => .pure ?_
    · cases a with
      | none => exact nil_notMem_mark _
      | some e => exact nil_notMem_schemaElement placed e
    · exact Language.append_mem_mul hu (by simpa using mem_statements hv)
  refine .word ?_ fun _ => ?_
  · exact .bind (reads_syntaxDecl.weaken le_rfl fun _ _ h => h) fun d us hu _ =>
      rest (some d) us hu
  · exact (rest none [] Language.nil_mem_one).weaken (by simp) fun _ _ _ => trivial

end ProtoSchema.Grammar

namespace ProtoSchema

open Parse

/-- What the production for a schema does on a list of tokens that ends: it reads a rendering
of the schema, or it fails where no rendering goes on. -/
theorem Schema.outcome (placed : Prop) {tokens : List Token} (h : Ended tokens) :
    Outcome placed (Rendering.schema placed) (ParseState.start tokens)
      (Grammar.schema (ParseState.start tokens)) := by
  have reads : Reads placed (ParseState.start tokens).remaining
      (fun _ => True) Grammar.schema _ :=
    Grammar.reads_schema
  exact reads.run _ (by rwa [ParseState.ahead_start]) le_rfl fun _ _ => trivial

/-- What is read from tokens, with the state in which reading ends. -/
theorem Schema.exists_outcome (placed : Prop) {tokens : List Token} (h : Ended tokens)
    {r : Except ParseFailure Schema} (hr : Schema.ofTokens tokens = r) :
    ∃ s, Grammar.schema (ParseState.start tokens) = (r, s) ∧
      Outcome placed (Rendering.schema placed) (ParseState.start tokens) (r, s) := by
  subst hr
  exact ⟨_, rfl, Schema.outcome placed h⟩

/-- A schema that is read from tokens can be written in tokens. -/
theorem Schema.exists_rendering (placed : Prop) {tokens : List Token}
    (h : Ended tokens) {f : Schema} (hf : Schema.ofTokens tokens = .ok f) :
    ∃ us, us ∈ Rendering.schema placed f := by
  obtain ⟨s, -, us, -, -, -, -, hu, -⟩ := Schema.exists_outcome placed h hf
  exact ⟨us, hu⟩

/-- Tokens that sources yield are read, or one of them is rejected. -/
theorem Schema.ofTokens_error {tokens : List Token} (h : Ended tokens)
    {failure : ParseFailure} (hf : Schema.ofTokens tokens = .error failure) :
    ∃ e, failure = .unexpected e ∧ e.actual ∈ tokens := by
  obtain ⟨s, -, reads⟩ := Schema.exists_outcome False h hf
  cases failure with
  | unexpected e =>
    obtain ⟨us, rest, htokens, -⟩ := reads
    rw [ParseState.ahead_start] at htokens
    exact ⟨e, rfl, by simp [htokens]⟩
  | noToken => exact reads.elim
  | numeral e => exact reads.elim
  | endless => exact reads.elim

end ProtoSchema
