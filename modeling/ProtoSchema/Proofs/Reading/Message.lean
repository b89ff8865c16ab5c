import ProtoSchema.Proofs.Reading.Declaration

/-!
# Reading messages

What the productions for messages, groups, oneofs and extensions read. They are given a
production for an element of a message; they read what they should if it does.
-/
namespace ProtoSchema.Grammar

open Parse Rendering

variable {placed : Prop} {n : ℕ} {pre : Token → Prop}

/-- A token that stands for no cardinality is none of the words that do. -/
theorem cardinality?_eq_none {t : Token} (h : t.WellMade) (hc : cardinality? t = none) :
    ∀ w ∈ cardinalityWords, ¬t.IsWord w := by
  have not (c : Cardinality) : ¬t.IsWord c.word := fun hw => by
    rw [(cardinality?_eq h).mpr hw] at hc
    cases hc
  simpa [cardinalityWords] using ⟨not .required, not .optional, not .repeated⟩

/-- A group behind its cardinality. -/
theorem mem_groupDecl {us ts : List Token} {c : Option Cardinality} {g : GroupDecl}
    {start : Token} (hu : us ∈ Rendering.cardinality c)
    (hg : ts ∈ groupTail placed g.name g.number g.options
      (messageStatements placed g.elements) ∧
      g.cardinality = c ∧ g.position = start.position)
    (first : placed → ∀ t ∈ (us ++ ts).head?, t = start) :
    us ++ ts ∈ Rendering.groupDecl placed g := by
  rw [groupDecl_eq]
  exact mem_starting (hg.2.1 ▸ Language.append_mem_mul hu hg.1)
    (by simp [groupTail]) hg.2.2 first

section Parts

variable {element : Parse (Option MessageElement)}
  (hq : Reads placed n (fun _ => True) element (statement (Rendering.messageElement placed)))

include hq

/-- The statements of a message in braces. -/
theorem reads_messageBody : Reads placed n pre (body element) fun es =>
    [mark .leftBrace, messageStatements placed es, mark .rightBrace].prod := by
  simp only [messageStatements_eq]
  exact reads_statements (hq.weaken le_rfl fun _ _ _ => trivial)
    (nil_notMem_messageElement placed)

/-- A group from its first word on. -/
theorem reads_groupDeclOf (c : Option Cardinality) (start : Token)
    (hpre : ∀ t : Token, t.WellMade → pre t → t.IsWord "group") :
    Reads placed (n + 1) pre (groupDeclOf element c start) fun g => {ts |
      ts ∈ groupTail placed g.name g.number g.options (messageStatements placed g.elements) ∧
      g.cardinality = c ∧ g.position = start.position} := by
  refine .within (.bind (reads_advance_word hpre) fun t us ht _ => ?_)
  obtain ⟨t, ⟨ht, rfl⟩, rfl⟩ := ht
  refine .bind (reads_consumeName _) fun x us h₁ _ =>
    .bind (reads_consumeMark _ _ rfl) fun _ us h₂ _ => ?_
  refine .bind reads_fieldNumber fun m us h₃ _ => ?_
  refine .bind reads_optionalCompactOptions fun os us h₄ _ => ?_
  refine .yield (reads_messageBody (hq.weaken (by simp; omega) fun _ _ => id))
    fun es us h₅ => ⟨?_, rfl, rfl⟩
  exact append_mem_prod ⟨t, ht, rfl⟩
    (append_mem_prod h₁ (append_mem_prod h₂ (append_mem_prod h₃
    (append_mem_prod h₄ h₅))))

/-- A field or a group that starts with none of the words tried before it. The name `x`, which
completes an input, is not among them. -/
theorem reads_memberOf (words : List String)
    (hpre : ∀ t : Token, t.WellMade → pre t → ∀ w ∈ words, ¬t.IsWord w)
    (hx : ∀ w ∈ words, Text.ofString "x" ≠ Text.ofString w) :
    Reads placed (n + 1) pre (memberOf element)
      (Rendering.member placed (words ++ extensionWords)) := by
  have none_mem : [] ∈ Rendering.cardinality none := Language.nil_mem_one
  refine .current (fun hn => ?_) fun start hw hstart => ?_
  · obtain ⟨t, -⟩ := Token.exists_identifier []
    obtain ⟨g, ts, hg, hts⟩ := (reads_groupDeclOf hq none t fun _ _ => id).completable hn
    refine ⟨.group g, ts, ?_, hts⟩
    rw [Rendering.member]
    exact mem_groupDecl none_mem hg fun h => absurd h hn
  cases hc : cardinality? start with
  | none =>
    refine .keyword rfl ?_ fun _ => ?_
    · refine .yield (reads_groupDeclOf hq none start fun t _ h => h.2).first fun g us hg => ?_
      rw [Rendering.member]
      exact mem_groupDecl none_mem hg.1 fun h t ht => (hg.2 h t ht).1
    · have not : ∀ t : Token, t.WellMade → t = start ∧ ¬t.IsWord "group" →
          ∀ w ∈ words ++ extensionWords, ¬t.IsWord w := by
        rintro t ht ⟨rfl, hg⟩ w hw'
        rcases List.mem_append.mp hw' with h | h
        · exact hpre t ht hstart w h
        · rcases List.mem_cons.mp h with rfl | h
          · exact hg
          · exact cardinality?_eq_none ht hc w h
      refine .yield (reads_fieldDecl none start not ?_).first fun f us hf => ?_
      · intro w hw'
        rcases List.mem_append.mp hw' with h | h
        · exact hx w h
        · exact (by decide : ∀ w ∈ extensionWords, Text.ofString "x" ≠ Text.ofString w) w h
      · obtain ⟨⟨hf, hc, hp⟩, first⟩ := hf
        refine mem_starting ?_ (nil_notMem_fieldBody placed _ f) hp fun h t ht =>
          (first h t ht).1
        rwa [fieldBody, hc]
  | some c =>
    have hc := (cardinality?_eq hw).mp hc
    have usable : start.Usable := ⟨hw, by simp [hc.1], by simp [hc.1]⟩
    refine reads_advance_bind usable (.keyword rfl ?_ fun _ => ?_)
    · refine .yield ((reads_groupDeclOf hq (some c) start fun t _ h => h).weaken (by omega)
        fun t _ h => h.2) fun g us hg => ?_
      have counted : [start] ∈ Rendering.cardinality (some c) := ⟨start, hc, rfl⟩
      show [start] ++ us ∈ Rendering.member placed (words ++ extensionWords) (.group g)
      rw [Rendering.member]
      exact mem_groupDecl counted hg (by simp)
    · have not : ∀ t : Token, t.WellMade → True ∧ ¬t.IsWord "group" → ∀ w ∈ ["group"],
          ¬t.IsWord w := by simp
      refine .yield (reads_fieldDecl (some c) start not (by decide)) fun f us hf => ?_
      obtain ⟨hf, hc', hp⟩ := hf
      refine mem_starting ?_ (nil_notMem_fieldBody placed _ f) hp (by simp)
      rw [fieldBody, hc']
      exact Language.append_mem_mul ⟨start, hc, rfl⟩ hf

/-- An element of a oneof. A cardinality is refused, by a message of its own. -/
theorem reads_oneofElementOf :
    Reads placed (n + 1) pre (oneofElementOf element) (Rendering.oneofElement placed) := by
  have option {o : OptionStatement} {us : List Token}
      (hu : us ∈ Rendering.optionStatement placed o) :
      us ∈ Rendering.oneofElement placed (.option o) := by
    rwa [Rendering.oneofElement]
  refine .current (fun hn => ?_) fun start hw _ => ?_
  · have h : Reads placed 0 (Token.IsWord "option") optionStatement _ :=
      reads_optionStatement fun _ _ => id
    obtain ⟨o, us, hu, hus⟩ := h.completable hn
    exact ⟨.option o, us, option hu, hus⟩
  refine .keyword rfl ?_ fun hL => .keyword rfl ?_ fun _ => ?_
  · exact .yield (reads_optionStatement fun _ _ h => h.2) fun o us hu => option hu
  · refine .yield (reads_groupDeclOf hq none start fun t _ h => h.2).first fun g us hg => ?_
    rw [Rendering.oneofElement, oneofMember]
    exact ⟨hg.1.2.1,
      mem_groupDecl (show [] ∈ Rendering.cardinality none from Language.nil_mem_one)
      hg.1 fun h t ht => (hg.2 h t ht).1.1⟩
  · cases hc : cardinality? start with
    | some c => exact .reject hL
    | none =>
      have not : ∀ t : Token, t.WellMade → (t = start ∧ ¬t.IsWord "option") ∧
          ¬t.IsWord "group" →
          ∀ w ∈ oneofWords, ¬t.IsWord w := by
        rintro t ht ⟨⟨rfl, ho⟩, hg⟩ w hw'
        rcases List.mem_cons.mp hw' with rfl | h
        · exact ho
        rcases List.mem_cons.mp h with rfl | h
        · exact hg
        · exact cardinality?_eq_none ht hc w h
      refine .yield (reads_fieldDecl none start not (by decide)).first fun f us hf => ?_
      obtain ⟨⟨hf, hc, hp⟩, first⟩ := hf
      rw [Rendering.oneofElement, oneofMember]
      refine ⟨hc, mem_starting ?_ (nil_notMem_fieldBody placed _ f) hp fun h t ht =>
        (first h t ht).1.1⟩
      rwa [fieldBody, hc]

/-- A oneof, whose word was seen before. -/
theorem reads_oneofDeclOf (hpre : ∀ t : Token, t.WellMade → pre t → t.IsWord "oneof") :
    Reads placed (n + 1) pre (oneofDeclOf element) (Rendering.oneofDecl placed) := by
  rw [oneofDecl_eq]
  refine .within (.bind (reads_advance_word hpre) fun t us ht _ => ?_)
  obtain ⟨t, ⟨ht, rfl⟩, rfl⟩ := ht
  refine .bind (reads_consumeName _) fun x us hu _ => ?_
  have element : Reads placed (n + 1) (·.kind ≠ .rightBrace) (oneofElementOf element) _ :=
    reads_oneofElementOf hq
  refine .yield (reads_elements (element.weaken (by omega) fun _ _ => id)
    (nil_notMem_oneofElement placed)) fun es vs hv => ⟨?_, fun _ => ⟨t, rfl, rfl⟩⟩
  rw [← oneofElements_eq] at hv
  exact append_mem_prod ⟨t, ht, rfl⟩ (append_mem_prod hu hv)

/-- A message, one level above the messages inside it. -/
theorem reads_messageDeclOf (hpre : ∀ t : Token, t.WellMade → pre t → t.IsWord "message") :
    Reads placed (n + 1) pre (messageDeclOf element) (Rendering.messageDecl placed) := by
  rw [messageDecl_eq]
  refine .within (.bind (reads_advance_word hpre) fun t us ht _ => ?_)
  obtain ⟨t, ⟨ht, rfl⟩, rfl⟩ := ht
  refine .bind (reads_consumeName _) fun x us hu _ => ?_
  refine .yield (reads_messageBody (hq.weaken (by simp) fun _ _ => id))
    fun es vs hv => ⟨?_, fun _ => ⟨t, rfl, rfl⟩⟩
  exact append_mem_prod ⟨t, ht, rfl⟩ (append_mem_prod hu hv)

/-- An extension of a type. Its members follow no other word. -/
theorem reads_extensionDeclOf (hpre : ∀ t : Token, t.WellMade → pre t → t.IsWord "extend") :
    Reads placed (n + 1) pre (extensionDeclOf element) (Rendering.extensionDecl placed) := by
  rw [extensionDecl_eq]
  refine .within (.bind (reads_advance_word hpre) fun t us ht _ => ?_)
  obtain ⟨t, ⟨ht, rfl⟩, rfl⟩ := ht
  refine .bind reads_typeName fun x us hu _ => ?_
  have member : Reads placed (n + 1) (·.kind ≠ .rightBrace) (memberOf element)
      (Rendering.member placed ([] ++ extensionWords)) :=
      reads_memberOf hq [] (by simp) (by simp)
  refine .yield (reads_elements (member.weaken (by omega) fun _ _ => id)
    (nil_notMem_member placed _)) fun es vs hv => ⟨?_, fun _ => ⟨t, rfl, rfl⟩⟩
  rw [List.nil_append, ← members_eq] at hv
  exact append_mem_prod ⟨t, ht, rfl⟩ (append_mem_prod hu hv)

/-- An element of a message, or a lone semicolon. What is tried before a member rules out the
words a member cannot start with. -/
theorem reads_messageElementOf : Reads placed (n + 1) pre (messageElementOf element)
    (statement (Rendering.messageElement placed)) := by
  refine .accept rfl (fun t ht _ => reads_none ht) fun _ => ?_
  refine .keyword rfl ?_ fun _ => .keyword rfl ?_ fun _ => .keyword rfl ?_ fun _ =>
    .keyword rfl ?_ fun _ => ?_
  · refine .yield (reads_optionStatement fun _ _ h => h.2) fun o us hu => ?_
    rwa [statement, Rendering.messageElement]
  · refine .yield (reads_messageDeclOf hq fun _ _ h => h.2) fun m us hu => ?_
    rwa [statement, Rendering.messageElement]
  · refine .yield (reads_enumDecl fun _ _ h => h.2) fun e us hu => ?_
    rwa [statement, Rendering.messageElement]
  · refine .yield (reads_extensionDeclOf hq fun _ _ h => h.2) fun e us hu => ?_
    rwa [statement, Rendering.messageElement]
  refine .keyword rfl ?_ fun _ => .keyword rfl ?_ fun _ => .keyword rfl ?_ fun _ =>
    .mapField ?_ ?_
  · refine .yield (reads_extensionRangeDecl fun _ _ h => h.2) fun r us hu => ?_
    rwa [statement, Rendering.messageElement]
  · refine .yield (reads_reservedDecl false fun _ _ h => h.2) fun r us hu => ?_
    rwa [statement, Rendering.messageElement]
  · refine .yield (reads_oneofDeclOf hq fun _ _ h => h.2) fun o us hu => ?_
    rwa [statement, Rendering.messageElement]
  · refine .yield reads_mapFieldDecl fun f us hu => ?_
    rwa [statement, Rendering.messageElement]
  · refine .yield (reads_memberOf hq elementWords ?_ (by decide)) fun m us hu => ?_
    · rintro t - ⟨⟨⟨⟨⟨⟨⟨-, h₁⟩, h₂⟩, h₃⟩, h₄⟩, h₅⟩, h₆⟩, h₇⟩
      simp [elementWords, *]
    · rwa [statement, Rendering.messageElement, messageWords]

end Parts

/-- An element of a message, however deep. -/
theorem reads_messageElement :
    Reads placed n pre messageElement (statement (Rendering.messageElement placed)) := by
  refine Reads.weaken
    (.recursive (fun _ => ?_) fun n q hq => reads_messageElementOf hq) le_rfl
    fun _ _ _ => trivial
  obtain ⟨t, hk, ht⟩ := Token.exists_usable (show TokenKind.semicolon ≠ _ from nofun) nofun
  exact ⟨none, [t], ⟨t, hk, rfl⟩, by simpa using ht⟩

end ProtoSchema.Grammar
