import ProtoSchema.Proofs.Taking.Message
import ProtoSchema.Grammar.Schema

/-!
# Taking services and schemas

The productions for services and for the top level take every rendering of what they read, and
yield it up to positions.
-/
namespace ProtoSchema.Grammar

open Parse Rendering Position

variable {placed : Prop} {n : ℕ} {ts rest : List Token}

/-! ## Services -/

/-- The rest of a type in parentheses. -/
theorem takes_typeBehind {x : Text} {us : List Token}
    (hu : us ∈ Rendering.typeName x) {w : Token} (hw : w.kind = .rightParen)
    (streaming : Bool) : Takes n
    (do
      let type ← Grammar.typeName
      consumeMark .rightParen ")"
      return (streaming, type))
    (us ++ [w]) rest (· = (streaming, x)) :=
  Takes.bind (takes_typeName hu (by simp [hw])) fun y hy =>
    (takes_consumeMark ⟨w, hw, rfl⟩ _ rfl).yield fun _ _ => by rw [hy]

/-- The type of what a method takes or gives. It is streaming if it stands behind the word
`stream`; a type may itself be named so. -/
theorem takes_methodType {streaming : Bool} {x : Text}
    (h : ts ∈ Rendering.methodType streaming x) :
    Takes n methodType ts rest (· = (streaming, x)) := by
  cases streaming with
  | true =>
    simp only [Rendering.methodType, mem_prod_cons, mem_prod_singleton] at h
    obtain ⟨_, ⟨t, ht, rfl⟩, _, ⟨_, ⟨u, hu, rfl⟩, _, ⟨vs, hv, _, ⟨w, hw, rfl⟩, rfl⟩, rfl⟩,
        rfl⟩ := h
    simp only [List.singleton_append]
    refine .cons (takes_consumeMark ⟨t, ht, rfl⟩ _ rfl) fun _ _ =>
      .keyword rfl (follow_cons.mpr hu) ?_
    obtain ⟨v, vs, rfl, hk⟩ := starts_typeName hv
    refine .lookOne rfl ?_
    have stream : v.kind ≠ .rightParen := fun h => absurd (h ▸ hk) (by decide)
    rw [decide_eq_true stream]
    have behind : Takes (n - 1) (advance >>= fun _ => _) (u :: (v :: vs ++ [w])) rest _ :=
      .cons (takes_advance (by simp [hu.1])) fun _ _ => takes_typeBehind hv hw true
    exact behind
  | false =>
    simp only [Rendering.methodType, mem_prod_cons, mem_prod_singleton] at h
    obtain ⟨_, ⟨t, ht, rfl⟩, _, ⟨us, hu, _, ⟨w, hw, rfl⟩, rfl⟩, rfl⟩ := h
    simp only [List.singleton_append]
    refine .cons (takes_consumeMark ⟨t, ht, rfl⟩ _ rfl) fun _ _ => ?_
    rcases hu with ⟨⟨u, hword, rfl⟩, hu⟩ | hu
    · refine .keyword rfl (follow_cons.mpr hword) (.lookOne rfl ?_)
      rw [decide_eq_false (by simpa using hw)]
      exact takes_typeBehind hu hw false
    · obtain ⟨v, vs, rfl, -⟩ := starts_typeName hu.1
      refine .keywordNot rfl
        (follow_cons.mpr fun h => hu.2 v rfl h.1 "stream" (by simp) h.2) ?_
      exact takes_typeBehind hu.1 hw false

/-- An option of a method, or a lone semicolon. -/
theorem takes_methodElement (b : Option OptionStatement)
    (h : ts ∈ statement (Rendering.optionStatement placed) b) :
    Takes n methodElement ts rest fun a =>
      a.map (·.relocate nowhere) = b.map (·.relocate nowhere) := by
  rcases b with _ | o
  · exact takes_semicolon h (.pure rfl)
  · have first := starts_word h
    refine takes_semicolon_not (starts_element first) (.keyword rfl (first.follow rest) ?_)
    exact (takes_optionStatement h).yield fun p hp => by simp [hp]

/-- A method, which ends in a semicolon or in a block of options. -/
theorem takes_methodDecl {m : MethodDecl} (h : ts ∈ Rendering.methodDecl placed m) :
    Takes n methodDecl ts rest fun d => d.relocate nowhere = m.relocate nowhere := by
  have h := h.1
  simp only [mem_prod_cons, mem_prod_singleton] at h
  obtain ⟨us₁, h₁, _,
      ⟨us₂, h₂, _, ⟨us₃, h₃, _, ⟨us₄, h₄, _, ⟨us₅, h₅, us₆, h₆, rfl⟩, rfl⟩, rfl⟩, rfl⟩,
    rfl⟩ := h
  refine .within (Takes.bind (takes_consumeWord h₁) fun _ _ => ?_)
  refine Takes.bind (takes_consumeName h₂ _) fun x hx => ?_
  refine Takes.bind (takes_methodType h₃) fun a ha => ?_
  refine Takes.bind (takes_consumeWord h₄) fun _ _ => ?_
  refine Takes.bind (takes_methodType h₅) fun b hb => ?_
  rw [ha, hb]
  rcases h₆ with h₆ | h₆
  · have brace : Follow (·.kind = .leftBrace) (us₆ ++ rest) := by
      obtain ⟨_, ⟨v, hv, rfl⟩, us, -, rfl⟩ := h₆
      exact follow_cons.mpr hv
    refine .check brace ?_
    refine (takes_statements (f := OptionStatement.relocate nowhere)
      (fun _ _ h => starts_element (starts_word h))
      (fun b us hu rest => takes_methodElement b hu)
      h₆).yield fun os hos => ?_
    simp [MethodDecl.relocate, hx, hos, nowhere]
  · cases hos : m.options with
    | cons o os =>
      rw [hos] at h₆
      cases h₆
    | nil =>
      rw [hos] at h₆
      obtain ⟨v, hv, rfl⟩ := h₆
      have hv : v.kind = .semicolon := hv
      refine .checkNot (by simp [hv]) (.accept rfl (by simp [hv]) (.pure ?_))
      simp [MethodDecl.relocate, hx, hos, nowhere]

/-- An element of a service, or a lone semicolon. -/
theorem takes_serviceElement (b : Option ServiceElement)
    (h : ts ∈ statement (Rendering.serviceElement placed) b) :
    Takes n serviceElement ts rest fun a =>
      a.map (·.relocate nowhere) = b.map (·.relocate nowhere) := by
  rcases b with _ | o | m
  · exact takes_semicolon h (.pure rfl)
  all_goals
    have first := starts_word h
    refine takes_semicolon_not (starts_element first) ?_
  · refine .keyword rfl (first.follow rest) ?_
    exact (takes_optionStatement h).yield fun p hp => by simp [ServiceElement.relocate, hp]
  · refine .keywordNot rfl (first.notWord rfl) ?_
    refine .word (first.follow rest) ?_
    exact (takes_methodDecl h).yield fun p hp => by simp [ServiceElement.relocate, hp]

theorem takes_serviceDecl {s : ServiceDecl} (h : ts ∈ Rendering.serviceDecl placed s) :
    Takes n serviceDecl ts rest fun d => d.relocate nowhere = s.relocate nowhere := by
  obtain ⟨⟨us₁, h₁, _, ⟨us₂, h₂, us₃, h₃, rfl⟩, rfl⟩, -⟩ := h
  show Takes n serviceDecl (us₁ ++ (us₂ ++ us₃)) rest _
  refine .within (Takes.bind (takes_consumeWord h₁) fun _ _ => ?_)
  refine Takes.bind (takes_consumeName h₂ _) fun x hx => ?_
  refine (takes_statements (f := ServiceElement.relocate nowhere) (fun e us hu => ?_)
    (fun b us hu rest => takes_serviceElement b hu) h₃).yield fun es hes => ?_
  · cases e <;> exact starts_element (starts_word hu)
  · simp [ServiceDecl.relocate, hx, hes, nowhere]

/-! ## Schemas -/

/-- The statement of the syntax. -/
theorem takes_syntaxDecl {d : SyntaxDecl} (h : ts ∈ Rendering.syntaxDecl placed d) :
    Takes n syntaxDecl ts rest fun e => e.relocate nowhere = d.relocate nowhere := by
  have h := h.1
  simp only [mem_prod_cons, mem_prod_singleton] at h
  obtain ⟨us₁, h₁, _, ⟨us₂, h₂, _, ⟨us₃, h₃, _, ⟨w, hw, rfl⟩, rfl⟩, rfl⟩, rfl⟩ := h
  refine .within (Takes.bind (takes_consumeWord h₁) fun _ _ => ?_)
  refine Takes.bind (takes_consumeMark h₂ _ rfl) fun _ _ => ?_
  refine Takes.bind (takes_stringLiteral h₃ (by simp [hw]) _) fun x hx => ?_
  exact (takes_consumeMark ⟨w, hw, rfl⟩ _ rfl).yield fun _ _ => by
    simp [SyntaxDecl.relocate, hx, nowhere]

/-- A modifier stops before the string that must follow. -/
theorem takes_importModifier {m : Option ImportModifier} (h : ts ∈ Rendering.importModifier m)
    (hrest : Follow (·.kind = .string) rest) : Takes n importModifier ts rest (· = m) := by
  rcases m with _ | _ | _
  · rw [show ts = [] from h]
    have not (w : String) : Follow (¬Token.IsWord w ·) ([] ++ rest) :=
      hrest.mono fun t ht h => by simp [h.1] at ht
    exact .wordNot (not _) (.wordNot (not _) (.pure rfl))
  all_goals obtain ⟨t, ht, rfl⟩ := h
  · refine .word (follow_cons.mpr ht) ?_
    exact (takes_advance (by simp [ht.1])).yield fun _ _ => rfl
  · have first : Starts (Token.IsWord "public") [t] := starts_cons.mpr ht
    refine .wordNot (first.notWord rfl) ?_
    refine .word (first.follow rest) ?_
    exact (takes_advance (by simp [ht.1])).yield fun _ _ => rfl

/-- An import, which may be public or weak. -/
theorem takes_importDecl {i : ImportDecl} (h : ts ∈ Rendering.importDecl placed i) :
    Takes n importDecl ts rest fun j => j.relocate nowhere = i.relocate nowhere := by
  have h := h.1
  simp only [mem_prod_cons, mem_prod_singleton] at h
  obtain ⟨us₁, h₁, _, ⟨us₂, h₂, _, ⟨us₃, h₃, _, ⟨w, hw, rfl⟩, rfl⟩, rfl⟩, rfl⟩ := h
  have first : Starts (·.kind = .string) us₃ := by
    obtain ⟨t, us, rfl⟩ := List.exists_cons_of_ne_nil h₃.1
    exact starts_cons.mpr (h₃.2.1 t (by simp))
  refine .within (Takes.bind (takes_consumeWord h₁) fun _ _ => ?_)
  refine Takes.bind (takes_importModifier h₂ ((first.append [w]).follow rest)) fun m hm => ?_
  refine Takes.bind (takes_stringLiteral h₃ (by simp [hw]) _) fun x hx => ?_
  exact (takes_consumeMark ⟨w, hw, rfl⟩ _ rfl).yield fun _ _ => by
    simp [ImportDecl.relocate, hm, hx, nowhere]

theorem takes_packageDecl {p : PackageDecl} (h : ts ∈ Rendering.packageDecl placed p) :
    Takes n packageDecl ts rest fun q => q.relocate nowhere = p.relocate nowhere := by
  have h := h.1
  simp only [mem_prod_cons, mem_prod_singleton] at h
  obtain ⟨us₁, h₁, _, ⟨us₂, h₂, _, ⟨w, hw, rfl⟩, rfl⟩, rfl⟩ := h
  refine .within (Takes.bind (takes_consumeWord h₁) fun _ _ => ?_)
  refine Takes.bind (takes_qualifiedIdentifier h₂ (by simp [hw])) fun x hx => ?_
  exact (takes_consumeMark ⟨w, hw, rfl⟩ _ rfl).yield fun _ _ => by
    simp [PackageDecl.relocate, hx, nowhere]

/-- A message, whose elements may hold others of any depth. -/
theorem takes_messageDecl {m : MessageDecl} (h : ts ∈ Rendering.messageDecl placed m) :
    Takes n messageDecl ts rest fun d => d.relocate nowhere = m.relocate nowhere :=
  (takes_messageDeclOf (fun b _ h _ => takes_messageElement b h) h).mono
    (Nat.le_succ n) fun _ => id

theorem takes_extensionDecl {e : ExtensionDecl} (h : ts ∈ Rendering.extensionDecl placed e) :
    Takes n extensionDecl ts rest fun d => d.relocate nowhere = e.relocate nowhere :=
  (takes_extensionDeclOf (fun b _ h _ => takes_messageElement b h) h).mono (Nat.le_succ n)
    fun _ => id

/-- The word that an element of a schema starts with. -/
def schemaWord : SchemaElement → String
  | .importing _ => "import"
  | .package _ => "package"
  | .option _ => "option"
  | .message _ => "message"
  | .enum _ => "enum"
  | .extension _ => "extend"
  | .service _ => "service"

/-- Each declaration of a schema starts with a word of its own. -/
theorem starts_schemaElement {e : SchemaElement} (h : ts ∈ Rendering.schemaElement placed e) :
    Starts (Token.IsWord (schemaWord e)) ts := by
  cases e with
  | message m =>
    rw [Rendering.schemaElement, messageDecl_eq] at h
    exact starts_word h
  | extension e =>
    rw [Rendering.schemaElement, extensionDecl_eq] at h
    exact starts_word h
  | _ => exact starts_word h

/-- A declaration of a schema, or a lone semicolon. The words of the declarations tell them
apart. -/
theorem takes_schemaElement (b : Option SchemaElement)
    (h : ts ∈ statement (Rendering.schemaElement placed) b) :
    Takes n schemaElement ts rest fun a =>
      a.map (·.relocate nowhere) = b.map (·.relocate nowhere) := by
  rcases b with _ | e
  · exact takes_semicolon h (.pure rfl)
  have first := starts_schemaElement h
  refine takes_semicolon_not (starts_element first) ?_
  cases e with
  | importing i =>
    have first : Starts (Token.IsWord "import") ts := first
    refine .word (first.follow rest) ?_
    exact (takes_importDecl h).yield fun p hp => by simp [SchemaElement.relocate, hp]
  | package p =>
    have first : Starts (Token.IsWord "package") ts := first
    refine .wordNot (first.notWord rfl) ?_
    refine .word (first.follow rest) ?_
    exact (takes_packageDecl h).yield fun p hp => by simp [SchemaElement.relocate, hp]
  | option o =>
    have first : Starts (Token.IsWord "option") ts := first
    refine .wordNot (first.notWord rfl) ?_
    refine .wordNot (first.notWord rfl) ?_
    refine .keyword rfl (first.follow rest) ?_
    exact (takes_optionStatement h).yield fun p hp => by simp [SchemaElement.relocate, hp]
  | message m =>
    have first : Starts (Token.IsWord "message") ts := first
    refine .wordNot (first.notWord rfl) ?_
    refine .wordNot (first.notWord rfl) ?_
    refine .keywordNot rfl (first.notWord rfl) ?_
    refine .keyword rfl (first.follow rest) ?_
    exact (takes_messageDecl h).yield fun p hp => by simp [SchemaElement.relocate, hp]
  | enum e =>
    have first : Starts (Token.IsWord "enum") ts := first
    refine .wordNot (first.notWord rfl) ?_
    refine .wordNot (first.notWord rfl) ?_
    refine .keywordNot rfl (first.notWord rfl) ?_
    refine .keywordNot rfl (first.notWord rfl) ?_
    refine .keyword rfl (first.follow rest) ?_
    exact (takes_enumDecl h).yield fun p hp => by simp [SchemaElement.relocate, hp]
  | extension e =>
    have first : Starts (Token.IsWord "extend") ts := first
    refine .wordNot (first.notWord rfl) ?_
    refine .wordNot (first.notWord rfl) ?_
    iterate 3 refine .keywordNot rfl (first.notWord rfl) ?_
    refine .keyword rfl (first.follow rest) ?_
    exact (takes_extensionDecl h).yield fun p hp => by simp [SchemaElement.relocate, hp]
  | service s =>
    have first : Starts (Token.IsWord "service") ts := first
    refine .wordNot (first.notWord rfl) ?_
    refine .wordNot (first.notWord rfl) ?_
    iterate 4 refine .keywordNot rfl (first.notWord rfl) ?_
    refine .word (first.follow rest) ?_
    exact (takes_serviceDecl h).yield fun p hp => by simp [SchemaElement.relocate, hp]

/-- What a statement at the top level starts with. -/
theorem starts_schemaStatement {b : Option SchemaElement}
    (h : ts ∈ statement (Rendering.schemaElement placed) b) :
    Starts (fun t => t.kind ≠ .endOfInput ∧ ¬t.IsWord "syntax") ts := by
  cases b with
  | none =>
    obtain ⟨t, ht, rfl⟩ := h
    have ht : t.kind = .semicolon := ht
    exact starts_cons.mpr ⟨by simp [ht], fun h => nomatch ht.symm.trans h.1⟩
  | some e =>
    refine (starts_schemaElement h).mono fun t ht => ⟨by simp [ht.1], fun hs => ?_⟩
    have other : Text.ofString (schemaWord e) ≠ Text.ofString "syntax" := by
      cases e <;> simp only [schemaWord] <;> decide
    exact other (ht.2.symm.trans hs.2)

/-- A whole schema, up to the token that ends the input. -/
theorem takes_schema {f : Schema} (h : ts ∈ Rendering.schema placed f)
    (hrest : Follow (·.kind = .endOfInput) rest) :
    Takes n Grammar.schema ts rest fun g => g.relocate nowhere = f.relocate nowhere := by
  obtain ⟨us, hu, vs, hv, rfl⟩ := h
  obtain ⟨bs, hbs, hvs⟩ := exists_of_statements hv
  have starts : ∀ b ∈ bs, ∀ us ∈ statement (Rendering.schemaElement placed) b,
      Starts (fun t => t.kind ≠ .endOfInput ∧ ¬t.IsWord "syntax") us :=
    fun _ _ _ => starts_schemaStatement
  have hend : Follow (fun t => t.kind = .endOfInput ∧ ¬t.IsWord "syntax") rest :=
    hrest.mono fun t ht => ⟨ht, fun h => nomatch ht.symm.trans h.1⟩
  have body {l : Option SyntaxDecl} (hl : l.map (·.relocate nowhere) =
      f.level.map (·.relocate nowhere)) {m : ℕ} : Takes m (do
        let elements ← whileMore (return !(← atEnd)) schemaElement
        return (⟨l, elements.filterMap id⟩ : Schema)) vs rest
        fun g => g.relocate nowhere = f.relocate nowhere := by
    have hmore := peeks_atEnd.bind_pure (! ·)
    refine (Takes.whileMore (c := 0) (g := fun t => !t.kind = .endOfInput)
      (P := fun _ => True)
      (fun s t rest => hmore.eq_ite) ?_ (fun b _ us hu rest _ => takes_schemaElement b hu) hvs
      (hend.mono fun t ht => by simp [ht.1])).yield fun es hes => ?_
    · exact fun b hb us hu => (starts b hb us hu).mono fun t ht => by simp [ht.1]
    · have hes := filterMap_eq_of_forall₂ (f := SchemaElement.relocate nowhere) hes
      rw [Schema.relocate, Schema.relocate, hl, hes, hbs]
  obtain hl | ⟨d, hl⟩ : f.level = none ∨ ∃ d, f.level = some d := by
    cases f.level <;> simp
  · rw [hl] at hu
    rw [show us = [] from hu]
    have first : Follow (¬Token.IsWord "syntax" ·) (vs ++ rest) :=
      follow_prod (fun b hb us hu => (starts b hb us hu).mono fun t ht => ht.2) hvs
        (hend.mono fun t ht => ht.2)
    exact .wordNot first (body (by rw [hl]))
  · rw [hl] at hu
    refine .word (((starts_word hu).append vs).follow rest) ?_
    refine Takes.bind (f := fun d => _ >>= fun _ => _) (takes_syntaxDecl hu) fun e he => ?_
    exact body (by simp [hl, he])

end ProtoSchema.Grammar
