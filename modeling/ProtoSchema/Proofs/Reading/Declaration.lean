import ProtoSchema.Proofs.Reading.Value

/-!
# Reading declarations

What the productions for ranges, fields, enums, messages and services read. A production whose
first word is taken unseen needs that word in front; the productions for what holds messages
need one for an element of a message.
-/
namespace ProtoSchema.Grammar

open Parse Rendering

variable {placed : Prop} {n : ℕ} {pre : Token → Prop}

/-! ## Bodies and ranges -/

/-- Elements in braces, where an element may be an empty statement. -/
theorem reads_body {α : Type} {element : Parse (Option α)} {F : Option α → Language Token}
    (hE : Reads placed n (fun t => t.kind ≠ .rightBrace) element F) (hF : ∀ a, [] ∉ F a) :
    Reads placed n pre (body element) fun as =>
      {ts | ∃ bs : List (Option α), bs.filterMap id = as ∧
      ts ∈ [mark .leftBrace, (bs.map F).prod, mark .rightBrace].prod} := by
  refine .bind (reads_consumeMark _ _ rfl) fun _ us hu _ => ?_
  refine .until rfl (.testNot peeks_atEnd (fun h => .reject_bind h)
    (hE.weaken (by omega) fun _ _ h => h.1)) hF fun bs vs hv => .pure ⟨bs, rfl, ?_⟩
  simpa using Language.append_mem_mul hu hv

/-- Statements in braces. -/
theorem reads_statements {α : Type} {element : Parse (Option α)} {E : α → Language Token}
    (hE : Reads placed n (fun t => t.kind ≠ .rightBrace) element (statement E))
    (hne : ∀ a, [] ∉ E a) : Reads placed n pre (body element) fun as =>
      [mark .leftBrace, statements E as, mark .rightBrace].prod := by
  refine (reads_body hE fun a => ?_).mono ?_
  · cases a with
    | none => exact nil_notMem_mark _
    | some a => exact hne a
  · rintro as us ⟨bs, rfl, us, hu, vs, ⟨vs, hv, ws, hw, rfl⟩, rfl⟩
    exact append_mem_prod hu (append_mem_prod (mem_statements hv) hw)

/-- Elements in braces where no empty statement may stand. -/
theorem reads_elements {α : Type} {element : Parse α} {E : α → Language Token}
    (hE : Reads placed n (fun t => t.kind ≠ .rightBrace) element E) (hne : ∀ a, [] ∉ E a) :
    Reads placed n pre (body (some <$> element)) fun as =>
      [mark .leftBrace, (as.map E).prod, mark .rightBrace].prod := by
  let F : Option α → Language Token := fun a => a.elim 0 E
  have element : Reads placed n (fun t => t.kind ≠ .rightBrace) (some <$> element) F :=
    hE.map fun a us hu => hu
  refine (reads_body element fun a => ?_).mono ?_
  · cases a with
    | none => exact Language.notMem_zero _
    | some a => exact hne a
  · rintro as us ⟨bs, rfl, us, hu, vs, ⟨vs, hv, ws, hw, rfl⟩, rfl⟩
    refine append_mem_prod hu (append_mem_prod ?_ hw)
    clear hw
    induction bs generalizing vs with
    | nil => exact hv
    | cons b bs ih =>
      obtain ⟨vs, hv, ws, hw, rfl⟩ := hv
      cases b with
      | none => exact absurd hv (Language.notMem_zero _)
      | some b => exact append_mem_prod hv (ih _ hw)

/-- An end of a range. Only an enumeration's may have a minus before it. -/
theorem reads_rangeNumber (negatives : Bool) (wanted : String → Expectation) :
    Reads placed n pre (rangeNumber negatives wanted) (Rendering.rangeNumber negatives) := by
  cases negatives
  · exact reads_unsignedInteger _
  · exact reads_signedInteger _

/-- A range of numbers. Without an upper end it is a single number. -/
theorem reads_tagRange (negatives : Bool) :
    Reads placed n pre (tagRange negatives) (Rendering.tagRange placed negatives) := by
  refine .within (.starting (fun start _ => ?_) fun r => ?_)
  · refine .bind (reads_rangeNumber _ _) fun m us hu _ => .word ?_ fun _ => .pure ⟨?_, rfl⟩
    · refine .bind (reads_advance_word fun _ _ h => h.2) fun t vs hv _ => ?_
      obtain ⟨t, ⟨ht, rfl⟩, rfl⟩ := hv
      have first : [t] ∈ word "to" := ⟨t, ht, rfl⟩
      refine .word ?_ fun _ => ?_
      · refine .yield (reads_advance_word fun _ _ h => h.2) fun v ws hw => ⟨?_, rfl⟩
        obtain ⟨v, ⟨hv, rfl⟩, rfl⟩ := hw
        exact Language.append_mem_mul hu (Language.append_mem_mul first ⟨v, hv, rfl⟩)
      · refine .yield (reads_rangeNumber _ _) fun k ws hw => ⟨?_, rfl⟩
        exact Language.append_mem_mul hu (Language.append_mem_mul first hw)
    · exact Language.append_mem_mul hu Language.nil_mem_one
  · cases negatives <;> simp [Rendering.rangeNumber]

theorem reads_tagRanges (negatives : Bool) :
    Reads placed n pre (tagRanges negatives) (Rendering.tagRanges placed negatives) :=
  .separatedBy rfl (reads_tagRange negatives)

/-- Reserved numbers or reserved names, as the token behind the word says. -/
theorem reads_reservedDecl (negatives : Bool)
    (hpre : ∀ t : Token, t.WellMade → pre t → t.IsWord "reserved") :
    Reads placed n pre (reservedDecl negatives)
      (Rendering.reservedDecl placed negatives) := by
  refine .within (.bind (reads_advance_word hpre) fun t us ht _ => ?_)
  obtain ⟨t, ⟨ht, rfl⟩, rfl⟩ := ht
  have first : [t] ∈ word "reserved" := ⟨t, ht, rfl⟩
  refine .test (peeks_check _) ?_ fun _ => ?_
  · refine .bind (.separatedBy rfl (reads_stringLiteral _)) fun xs us hu _ => ?_
    refine .yield (reads_consumeMark _ _ rfl) fun _ vs hv => ⟨?_, fun _ => ⟨t, rfl, rfl⟩⟩
    exact append_mem_prod first (append_mem_prod hu (mem_singleton_prod hv))
  · refine .bind (reads_tagRanges _) fun xs us hu _ => ?_
    refine .yield (reads_consumeMark _ _ rfl) fun _ vs hv => ⟨?_, fun _ => ⟨t, rfl, rfl⟩⟩
    exact append_mem_prod first (append_mem_prod hu (mem_singleton_prod hv))

/-- Ranges for extensions, with the options behind them. -/
theorem reads_extensionRangeDecl
    (hpre : ∀ t : Token, t.WellMade → pre t → t.IsWord "extensions") :
    Reads placed n pre extensionRangeDecl (Rendering.extensionRangeDecl placed) := by
  refine .within (.bind (reads_advance_word hpre) fun t us ht _ => ?_)
  obtain ⟨t, ⟨ht, rfl⟩, rfl⟩ := ht
  refine .bind (reads_tagRanges _) fun rs us hu _ => ?_
  refine .bind reads_optionalCompactOptions fun os vs hv _ => ?_
  refine .yield (reads_consumeMark _ _ rfl) fun _ ws hw => ⟨?_, fun _ => ⟨t, rfl, rfl⟩⟩
  exact append_mem_prod ⟨t, ht, rfl⟩ (append_mem_prod hu (append_mem_prod hv
    (mem_singleton_prod hw)))

/-! ## Fields -/

/-- A type that does not start with one of the words, where none of them stands. -/
theorem reads_typeNameNot {words : List String}
    (hpre : ∀ t : Token, t.WellMade → pre t → ∀ w ∈ words, ¬t.IsWord w)
    (hx : ∀ w ∈ words, Text.ofString "x" ≠ Text.ofString w) :
    Reads placed n pre Grammar.typeName fun x =>
      notStarting words (Rendering.typeName x) := by
  refine reads_typeName.head
    (fun t ht h hk w hw htext => hpre t ht h w hw ⟨hk, htext⟩) fun _ => ?_
  obtain ⟨t, ht, hu⟩ := Token.exists_identifier (Text.ofString "x")
  have one : [t] ∈ Rendering.identifier (Text.ofString "x") := ⟨t, ht, rfl⟩
  refine ⟨Text.ofString "x", [t], ⟨.inl ⟨[Text.ofString "x"], rfl, ?_⟩, ?_⟩, by
    simpa using hu⟩
  · exact Language.append_mem_mul one Language.nil_mem_one
  · rintro u ⟨⟩ - w hw
    rw [ht.2]
    exact hx w hw

/-- A field whose cardinality, if any, was read before. -/
theorem reads_fieldDecl (c : Option Cardinality) (start : Token) {words : List String}
    (hpre : ∀ t : Token, t.WellMade → pre t → ∀ w ∈ words, ¬t.IsWord w)
    (hx : ∀ w ∈ words, Text.ofString "x" ≠ Text.ofString w) :
    Reads placed n pre (fieldDecl c start) fun f =>
      {ts | ts ∈ notStarting words (fieldTail placed f) ∧
      f.cardinality = c ∧ f.position = start.position} := by
  refine .within (.bind (reads_typeNameNot hpre hx) fun x us hu _ => ?_)
  refine .bind (reads_consumeName _) fun y vs hv _ =>
    .bind (reads_consumeMark _ _ rfl) fun _ ws hw _ => ?_
  refine .bind reads_fieldNumber fun m zs hz _ => ?_
  refine .bind reads_optionalCompactOptions fun os qs hq _ => ?_
  refine .yield (reads_consumeMark _ _ rfl) fun _ rs hr => ⟨⟨?_, ?_⟩, rfl, rfl⟩
  · exact append_mem_prod hu.1 (append_mem_prod hv (append_mem_prod hw (append_mem_prod hz
      (append_mem_prod hq (mem_singleton_prod hr)))))
  · obtain ⟨t, us, rfl⟩ := List.exists_cons_of_ne_nil fun h =>
      nil_notMem_typeName x (h ▸ hu.1)
    exact hu.2

/-- The type of the keys of a map, which is one of the scalar types. -/
theorem reads_mapKeyType : Reads placed n pre mapKeyType Rendering.mapKeyType := by
  obtain ⟨t, ht, hu⟩ := Token.exists_identifier (Text.ofString "bool")
  have bool : isMapKeyType t.text := by
    rw [ht.2]
    decide
  refine .current (fun _ => ⟨t.text, [t], ⟨bool, t, ⟨ht.1, rfl⟩, rfl⟩, by simpa using hu⟩)
    fun key hw _ => ?_
  split
  · exact .reject_bind fun _ => ⟨t.text, [t], ⟨bool, t, ⟨ht.1, rfl⟩, rfl⟩, by simpa using hu⟩
  · rename_i h
    have hk : key.kind = .identifier ∧ isMapKeyType key.text := by simpa using h
    refine reads_advance_bind ⟨hw, by simp [hk.1], by simp [hk.1]⟩ (.pure ?_)
    exact ⟨hk.2, key, ⟨hk.1, rfl⟩, rfl⟩

/-- A map. It asks for its word, which need not have been seen before. -/
theorem reads_mapFieldDecl :
    Reads placed n pre mapFieldDecl (Rendering.mapFieldDecl placed) := by
  refine .within (.bind (reads_consumeWord _) fun t us ht _ => ?_)
  obtain ⟨t, ⟨ht, rfl⟩, rfl⟩ := ht
  refine .bind (reads_consumeMark _ _ rfl) fun _ us h₁ _ =>
    .bind reads_mapKeyType fun k us h₂ _ => ?_
  refine .bind (reads_consumeMark _ _ rfl) fun _ us h₃ _ =>
    .bind reads_typeName fun v us h₄ _ => ?_
  refine .bind (reads_consumeMark _ _ rfl) fun _ us h₅ _ => ?_
  refine .bind (reads_consumeName _) fun x us h₆ _ => ?_
  refine .bind (reads_consumeMark _ _ rfl) fun _ us h₇ _ =>
    .bind reads_fieldNumber fun m us h₈ _ => ?_
  refine .bind reads_optionalCompactOptions fun os us h₉ _ => ?_
  refine .yield (reads_consumeMark _ _ rfl) fun _ rs hr => ⟨?_, fun _ => ⟨t, rfl, rfl⟩⟩
  exact append_mem_prod ⟨t, ht, rfl⟩
    (append_mem_prod h₁ (append_mem_prod h₂ (append_mem_prod h₃
    (append_mem_prod h₄ (append_mem_prod h₅ (append_mem_prod h₆ (append_mem_prod h₇
    (append_mem_prod h₈ (append_mem_prod h₉ (mem_singleton_prod hr))))))))))

/-! ## Enums -/

theorem reads_enumValueDecl :
    Reads placed n pre enumValueDecl (Rendering.enumValueDecl placed) := by
  refine .within (.starting (fun start _ => ?_) fun v => by simp)
  refine .bind (reads_consumeName _) fun x us h₁ _ =>
    .bind (reads_consumeMark _ _ rfl) fun _ us h₂ _ => ?_
  refine .bind (reads_signedInteger _) fun m us h₃ _ => ?_
  refine .bind reads_optionalCompactOptions fun os us h₄ _ => ?_
  refine .yield (reads_consumeMark _ _ rfl) fun _ rs hr => ⟨?_, rfl⟩
  exact append_mem_prod h₁ (append_mem_prod h₂ (append_mem_prod h₃ (append_mem_prod h₄
    (mem_singleton_prod hr))))

/-- A semicolon on its own leaves nothing. -/
theorem reads_none {α : Type} {E : α → Language Token} {t : Token}
    (h : t.kind ∈ [TokenKind.semicolon]) :
    Reads placed n pre (pure none) (after [t] (statement E)) :=
  .pure ⟨t, by simpa using h, rfl⟩

/-- An element of an enumeration, or a lone semicolon. A value starts with none of the words
tried before it. -/
theorem reads_enumElement :
    Reads placed n pre enumElement (statement (Rendering.enumElement placed)) := by
  refine .accept rfl (fun t ht _ => reads_none ht) fun _ => ?_
  refine .keyword rfl ?_ fun _ => .keyword rfl ?_ fun _ => ?_
  · exact .yield (reads_optionStatement fun _ _ h => h.2) fun o us hu => hu
  · exact .yield (reads_reservedDecl true fun _ _ h => h.2) fun r us hu => hu
  · exact .yield reads_enumValueDecl fun v us hv => hv

/-- An enumeration, whose word was seen before. -/
theorem reads_enumDecl (hpre : ∀ t : Token, t.WellMade → pre t → t.IsWord "enum") :
    Reads placed n pre enumDecl (Rendering.enumDecl placed) := by
  refine .within (.bind (reads_advance_word hpre) fun t us ht _ => ?_)
  obtain ⟨t, ⟨ht, rfl⟩, rfl⟩ := ht
  refine .bind (reads_consumeName _) fun x us hu _ => ?_
  refine .yield (reads_statements reads_enumElement (nil_notMem_enumElement placed))
    fun es vs hv => ⟨?_, fun _ => ⟨t, rfl, rfl⟩⟩
  exact append_mem_prod ⟨t, ht, rfl⟩ (append_mem_prod hu hv)

end ProtoSchema.Grammar
