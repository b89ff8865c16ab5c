import ProtoSchema.Proofs.Taking.Value
import ProtoSchema.Grammar.Member
import ProtoSchema.Grammar.Message

/-!
# Taking declarations

The productions for bodies, ranges, fields and enums take every rendering of what they read,
and yield it up to positions.
-/
namespace ProtoSchema.Grammar

open Parse Rendering Position

variable {placed : Prop} {n : ℕ} {ts rest : List Token}

/-! ## Bodies -/

/-- The kinds of tokens that the elements of bodies start with. -/
def elementKinds : List TokenKind := [.identifier, .dot]

/-- Elements in braces. What they start with is neither the closing brace nor the end. -/
theorem takes_body {α β : Type} {element : Parse (Option α)} {F : β → Language Token}
    {Q : β → Option α → Prop} {R : List α → Prop} {bs : List β}
    (hF : ∀ b ∈ bs, ∀ us ∈ F b, Starts (·.kind ∈ .semicolon :: elementKinds) us)
    (hE : ∀ b ∈ bs, ∀ us ∈ F b, ∀ rest, Takes n element us rest (Q b))
    (h : ts ∈ [mark .leftBrace, (bs.map F).prod, mark .rightBrace].prod)
    (hR : ∀ as, List.Forall₂ Q bs as → R (as.filterMap id)) :
    Takes n (body element) ts rest R := by
  simp only [mem_prod_cons, mem_prod_singleton] at h
  obtain ⟨_, ⟨t, ht, rfl⟩, us, hu, rfl⟩ := h
  rw [List.singleton_append]
  refine .cons (takes_consumeMark ⟨t, ht, rfl⟩ _ rfl) fun _ _ => ?_
  refine Takes.until rfl (P := fun _ => True) (F := F) (Q := Q) (fun _ _ => trivial) ?_ ?_
    (Language.mem_mul.mpr hu) hR
  · refine fun b hb us hu => (hF b hb us hu).mono fun t ht => ⟨fun h => ?_, trivial⟩
    rw [h] at ht
    exact absurd ht (by decide)
  · intro b hb us hu rest _
    refine .peek peeks_atEnd (b := false) (fun t _ ht => decide_eq_false fun h => ?_)
      ((hE b hb us hu rest).mono (Nat.sub_le _ _) fun _ => id)
    have first : t.kind ∈ .semicolon :: elementKinds := (hF b hb us hu).follow rest t ht
    rw [h] at first
    exact absurd first (by decide)

/-- The statements that are no empty ones agree when all do. -/
theorem filterMap_eq_of_forall₂ {α β : Type} {f : α → β} {as bs : List (Option α)}
    (h : List.Forall₂ (fun a b => b.map f = a.map f) as bs) :
    (bs.filterMap id).map f = (as.filterMap id).map f := by
  have h := map_eq_of_forall₂ h
  simpa [List.map_filterMap, List.filterMap_map] using congrArg (List.filterMap id) h

/-- Statements in braces. -/
theorem takes_statements {α β : Type} {element : Parse (Option α)} {E : α → Language Token}
    {f : α → β} {as : List α} (hstart : ∀ a, ∀ us ∈ E a, Starts (·.kind ∈ elementKinds) us)
    (hE : ∀ b, ∀ us ∈ statement E b, ∀ rest,
      Takes n element us rest fun a => a.map f = b.map f)
    (h : ts ∈ [mark .leftBrace, statements E as, mark .rightBrace].prod) :
    Takes n (body element) ts rest fun bs => bs.map f = as.map f := by
  simp only [mem_prod_cons, mem_prod_singleton] at h
  obtain ⟨us, hu, _, ⟨vs, hv, ws, hw, rfl⟩, rfl⟩ := h
  obtain ⟨bs, rfl, hbs⟩ := exists_of_statements hv
  refine takes_body (F := statement E) (Q := fun b a => a.map f = b.map f) ?_
    (fun b _ us hu rest => hE b us hu rest) (append_mem_prod hu (append_mem_prod hbs
      (mem_singleton_prod hw))) fun cs hcs => ?_
  · rintro b - us hu
    cases b with
    | none =>
      obtain ⟨t, ht, rfl⟩ := hu
      simp [ht]
    | some a => exact (hstart a us hu).mono fun t ht => List.mem_cons_of_mem _ ht
  · exact filterMap_eq_of_forall₂ hcs

/-- Elements in braces where no empty statement may stand. -/
theorem takes_elements {α β : Type} {element : Parse α} {E : α → Language Token} {f : α → β}
    {as : List α} (hstart : ∀ a, ∀ us ∈ E a, Starts (·.kind ∈ elementKinds) us)
    (hE : ∀ a, ∀ us ∈ E a, ∀ rest, Takes n element us rest fun b => f b = f a)
    (h : ts ∈ [mark .leftBrace, (as.map E).prod, mark .rightBrace].prod) :
    Takes n (body (some <$> element)) ts rest fun bs => bs.map f = as.map f := by
  refine takes_body (F := E) (Q := fun a b => b.map f = some (f a))
    (fun a _ us hu => (hstart a us hu).mono fun t ht => List.mem_cons_of_mem _ ht)
    (fun a _ us hu rest => (hE a us hu rest).map fun b hb => by simp [hb]) h fun cs hcs => ?_
  clear h
  induction hcs with
  | nil => rfl
  | @cons a c as cs hc _ ih =>
    cases c with
    | none => cases hc
    | some b => simpa using ⟨by simpa using hc, by simpa using ih⟩

/-! ## Ranges -/

/-- An end of a range. Only an enumeration's may have a minus before it. -/
theorem takes_rangeNumber {negatives : Bool} {m : ℤ}
    (h : ts ∈ Rendering.rangeNumber negatives m) (wanted : String → Expectation) :
    Takes n (rangeNumber negatives wanted) ts rest (· = m) := by
  cases negatives
  · exact takes_unsignedInteger h _
  · exact takes_signedInteger h _

theorem starts_rangeNumber {negatives : Bool} {m : ℤ}
    (h : ts ∈ Rendering.rangeNumber negatives m) :
    Starts (fun t => t.kind = .integer ∨ t.kind = .minus) ts := by
  have unsigned {m : ℤ} {us : List Token} (h : us ∈ unsigned m) :
      Starts (fun t => t.kind = .integer ∨ t.kind = .minus) us := by
    obtain ⟨-, t, ht, rfl⟩ := h
    exact starts_cons.mpr (.inl ht.1)
  cases negatives
  · exact unsigned h
  · rcases mem_signed.mp h with h | ⟨_, ⟨t, ht, rfl⟩, us, -, rfl⟩
    · exact unsigned h
    · exact starts_cons.mpr (.inr ht)

/-- A range of numbers, whose upper end may be left out or be the word `max`. -/
theorem takes_tagRange {negatives : Bool} {r : TagRange}
    (h : ts ∈ Rendering.tagRange placed negatives r)
    (hrest : Follow (¬Token.IsWord "to" ·) rest) :
    Takes n (tagRange negatives) ts rest fun q =>
      q.relocate nowhere = r.relocate nowhere := by
  obtain ⟨us, hu, vs, hv, rfl⟩ := Language.mem_mul.mp h.1
  refine .within
    (.current fun start _ _ => Takes.bind (takes_rangeNumber hu _) fun k hk => ?_)
  cases hlast : r.last with rw [hlast] at hv
  | none =>
    rw [show vs = [] from hv]
    exact .wordNot hrest (.pure (by simp [TagRange.relocate, hk, hlast, nowhere]))
  | some last =>
    cases last with
    | max =>
      obtain ⟨_, ⟨t, ht, rfl⟩, _, ⟨u, hu, rfl⟩, rfl⟩ := Language.mem_mul.mp hv
      refine .word (follow_cons.mpr ht) (.cons (takes_advance (by simp [ht.1])) fun _ _ => ?_)
      refine .word (follow_cons.mpr hu) ((takes_advance (by simp [hu.1])).yield fun _ _ => ?_)
      simp [TagRange.relocate, hk, hlast, nowhere]
    | number m =>
      obtain ⟨_, ⟨t, ht, rfl⟩, ws, hw, rfl⟩ := Language.mem_mul.mp hv
      refine .word (follow_cons.mpr ht) (.cons (takes_advance (by simp [ht.1])) fun _ _ => ?_)
      refine .wordNot (((starts_rangeNumber hw).follow rest).mono fun t ht h => ?_) ?_
      · simp [h.1] at ht
      · refine (takes_rangeNumber hw _).yield fun j hj => ?_
        simp [TagRange.relocate, hk, hj, hlast, nowhere]

/-- Ranges stop before what is neither a comma nor the word that a range goes on with. -/
theorem takes_tagRanges {negatives : Bool} {rs : List TagRange}
    (h : ts ∈ Rendering.tagRanges placed negatives rs)
    (hrest : Follow (fun t => t.kind ≠ .comma ∧ t.kind ≠ .identifier) rest) :
    Takes n (tagRanges negatives) ts rest fun qs =>
      qs.map (·.relocate nowhere) = rs.map (·.relocate nowhere) := by
  refine Takes.mono (.separatedBy rfl (P := (¬Token.IsWord "to" ·)) ?_
    (fun r _ us hu rest hr => takes_tagRange hu hr) h ?_) le_rfl fun qs hqs =>
      map_eq_of_forall₂ hqs
  · exact fun t ht h => by simp [h.1] at ht
  · exact hrest.mono fun t ht => ⟨ht.1, fun h => ht.2 h.1⟩

theorem starts_tagRanges {negatives : Bool} {rs : List TagRange}
    (h : ts ∈ Rendering.tagRanges placed negatives rs) :
    Starts (fun t => t.kind = .integer ∨ t.kind = .minus) ts := by
  cases rs with
  | nil => cases h
  | cons r rs =>
    obtain ⟨us, hu, vs, -, rfl⟩ := Language.mem_mul.mp h
    obtain ⟨us, hm, ws, -, rfl⟩ := Language.mem_mul.mp hu.1
    exact ((starts_rangeNumber hm).append ws).append vs

/-- Reserved numbers or reserved names; the token behind the word says which. -/
theorem takes_reservedDecl {negatives : Bool} {r : ReservedDecl}
    (h : ts ∈ Rendering.reservedDecl placed negatives r) :
    Takes n (reservedDecl negatives) ts rest fun q =>
      q.relocate nowhere = r.relocate nowhere := by
  have h := h.1
  simp only [mem_prod_cons, mem_prod_singleton] at h
  obtain ⟨_, ⟨t, ht, rfl⟩, _, ⟨us, hu, _, ⟨v, hv, rfl⟩, rfl⟩, rfl⟩ := h
  rw [List.singleton_append]
  refine .within (.cons (takes_advance (by simp [ht.1])) fun _ _ => ?_)
  cases hr : r.reserved with rw [hr] at hu
  | ranges rs =>
    refine .checkNot
      (((starts_tagRanges hu).append [v]).follow rest |>.mono fun t ht h => ?_) ?_
    · simp [h] at ht
    refine Takes.bind (takes_tagRanges hu (by simp [hv])) fun qs hqs => ?_
    exact (takes_consumeMark ⟨v, hv, rfl⟩ _ rfl).yield fun _ _ => by
      simp [ReservedDecl.relocate, Reserved.relocate, hr, hqs, nowhere]
  | names xs =>
    have first : Starts (·.kind = .string) us := by
      cases xs with
      | nil => cases hu
      | cons x xs =>
        obtain ⟨us, hx, vs, -, rfl⟩ := Language.mem_mul.mp hu
        obtain ⟨t, us, rfl⟩ := List.exists_cons_of_ne_nil hx.1
        exact starts_cons.mpr (hx.2.1 t (by simp))
    refine .check ((first.append [v]).follow rest) ?_
    refine Takes.bind (.separatedBy rfl (P := (·.kind ≠ .string)) (fun t ht => by simp [ht])
      (fun x _ us hu rest hr => takes_stringLiteral hu hr _) hu (by simp [hv]))
        fun ys hys => ?_
    exact (takes_consumeMark ⟨v, hv, rfl⟩ _ rfl).yield fun _ _ => by
      simp [ReservedDecl.relocate, Reserved.relocate, hr, forall₂_eq_iff.mp hys, nowhere]

/-- Ranges for extensions, with the options behind them. -/
theorem takes_extensionRangeDecl {r : ExtensionRangeDecl}
    (h : ts ∈ Rendering.extensionRangeDecl placed r) :
    Takes n extensionRangeDecl ts rest fun q => q.relocate nowhere = r.relocate nowhere := by
  have h := h.1
  simp only [mem_prod_cons, mem_prod_singleton] at h
  obtain ⟨_, ⟨t, ht, rfl⟩, _, ⟨us, hu, _, ⟨vs, hv, _, ⟨w, hw, rfl⟩, rfl⟩, rfl⟩, rfl⟩ := h
  rw [List.singleton_append]
  refine .within (.cons (takes_advance (by simp [ht.1])) fun _ _ => ?_)
  have follow : Follow (fun t => t.kind ≠ .comma ∧ t.kind ≠ .identifier)
      (vs ++ ([w] ++ rest)) :=
    follow_compactOptions hv (fun t ht => by simp [ht]) (by simp [hw])
  refine Takes.bind (takes_tagRanges hu (by simpa using follow)) fun qs hqs => ?_
  refine Takes.bind (takes_optionalCompactOptions hv (by simp [hw])) fun os hos => ?_
  exact (takes_consumeMark ⟨w, hw, rfl⟩ _ rfl).yield fun _ _ => by
    simp [ExtensionRangeDecl.relocate, hqs, hos, nowhere]

/-! ## Fields -/

/-- What holds of each identifier holds of the token that a name starts with. -/
theorem follow_name {P : Token → Prop} {x : Text} (h : ts ∈ Rendering.name x)
    (hP : ∀ t : Token, t.kind = .identifier → P t) : Follow P (ts ++ rest) := by
  obtain ⟨-, t, ht, rfl⟩ := h
  exact follow_cons.mpr (hP t ht.1)

/-- A field whose cardinality was taken before. -/
theorem takes_fieldDecl {f : FieldDecl} (h : ts ∈ fieldTail placed f) (start : Token) :
    Takes n (fieldDecl f.cardinality start) ts rest fun g =>
      g.relocate nowhere = f.relocate nowhere := by
  simp only [fieldTail, mem_prod_cons, mem_prod_singleton] at h
  obtain ⟨us₁, h₁, _,
      ⟨us₂, h₂, _, ⟨_, ⟨e, he, rfl⟩, _, ⟨us₃, h₃, _, ⟨us₄, h₄, _, ⟨w, hw, rfl⟩, rfl⟩, rfl⟩,
    rfl⟩, rfl⟩, rfl⟩ := h
  rw [List.singleton_append]
  refine .within (Takes.bind (takes_typeName h₁ ?_) fun x hx => ?_)
  · rw [List.append_assoc]
    exact follow_name h₂ fun t ht => by simp [ht]
  refine Takes.bind (takes_consumeName h₂ _) fun y hy => ?_
  refine .cons (takes_consumeMark ⟨e, he, rfl⟩ _ rfl) fun _ _ => ?_
  refine Takes.bind (takes_fieldNumber h₃) fun k hk => ?_
  refine Takes.bind (takes_optionalCompactOptions h₄ (by simp [hw])) fun os hos => ?_
  exact (takes_consumeMark ⟨w, hw, rfl⟩ _ rfl).yield fun _ _ => by
    simp [FieldDecl.relocate, hx, hy, hk, hos, nowhere]

/-- The type of the keys of a map, which is one of the scalar types. -/
theorem takes_mapKeyType {x : Text} (h : ts ∈ Rendering.mapKeyType x) :
    Takes n mapKeyType ts rest (· = x) := by
  obtain ⟨hx, t, ⟨hk, rfl⟩, rfl⟩ := h
  refine .current fun u _ hu => ?_
  cases hu
  rw [if_neg (by simp [hk, hx])]
  exact (takes_advance (by simp [hk])).yield fun _ _ => rfl

/-- A map: its types in angle brackets, its name, its number and its options. -/
theorem takes_mapFieldDecl {f : MapFieldDecl} (h : ts ∈ Rendering.mapFieldDecl placed f) :
    Takes n mapFieldDecl ts rest fun g => g.relocate nowhere = f.relocate nowhere := by
  have h := h.1
  simp only [mem_prod_cons, mem_prod_singleton] at h
  obtain ⟨_, ⟨t, ht, rfl⟩, _,
      ⟨us₁, h₁, _, ⟨us₂, h₂, _, ⟨us₃, h₃, _, ⟨us₄, h₄, _, ⟨_, ⟨v, hv, rfl⟩, _,
    ⟨us₅, h₅, _, ⟨us₆, h₆, _, ⟨us₇, h₇, _, ⟨us₈, h₈, _, ⟨w, hw, rfl⟩, rfl⟩, rfl⟩, rfl⟩, rfl⟩,
    rfl⟩, rfl⟩,
    rfl⟩, rfl⟩, rfl⟩, rfl⟩ := h
  simp only [List.singleton_append]
  refine .within (.cons (takes_consumeWord ⟨t, ht, rfl⟩) fun _ _ => ?_)
  refine Takes.bind (takes_consumeMark h₁ _ rfl) fun _ _ => ?_
  refine Takes.bind (takes_mapKeyType h₂) fun key hkey => ?_
  refine Takes.bind (takes_consumeMark h₃ _ rfl) fun _ _ => ?_
  refine Takes.bind (takes_typeName h₄ (by simp [hv])) fun value hvalue => ?_
  refine .cons (takes_consumeMark ⟨v, hv, rfl⟩ _ rfl) fun _ _ => ?_
  refine Takes.bind (takes_consumeName h₅ _) fun x hx => ?_
  refine Takes.bind (takes_consumeMark h₆ _ rfl) fun _ _ => ?_
  refine Takes.bind (takes_fieldNumber h₇) fun k hk => ?_
  refine Takes.bind (takes_optionalCompactOptions h₈ (by simp [hw])) fun os hos => ?_
  exact (takes_consumeMark ⟨w, hw, rfl⟩ _ rfl).yield fun _ _ => by
    simp [MapFieldDecl.relocate, hkey, hvalue, hx, hk, hos, nowhere]

/-! ## Enums -/

/-- A value of an enumeration. Its number may be negative. -/
theorem takes_enumValueDecl {v : EnumValueDecl} (h : ts ∈ Rendering.enumValueDecl placed v) :
    Takes n enumValueDecl ts rest fun w => w.relocate nowhere = v.relocate nowhere := by
  have h := h.1
  simp only [mem_prod_cons, mem_prod_singleton] at h
  obtain ⟨us₁, h₁, _, ⟨us₂, h₂, _, ⟨us₃, h₃, _, ⟨us₄, h₄, _, ⟨w, hw, rfl⟩, rfl⟩, rfl⟩, rfl⟩,
      rfl⟩ := h
  refine .within
    (.current fun start _ _ => Takes.bind (takes_consumeName h₁ _) fun x hx => ?_)
  refine Takes.bind (takes_consumeMark h₂ _ rfl) fun _ _ => ?_
  refine Takes.bind (takes_signedInteger h₃ _) fun k hk => ?_
  refine Takes.bind (takes_optionalCompactOptions h₄ (by simp [hw])) fun os hos => ?_
  exact (takes_consumeMark ⟨w, hw, rfl⟩ _ rfl).yield fun _ _ => by
    simp [EnumValueDecl.relocate, hx, hk, hos, nowhere]

/-- An empty statement is taken and leaves nothing. -/
theorem takes_semicolon {α : Type} {f : Bool → Parse α} {Q : α → Prop}
    (h : ts ∈ mark .semicolon) (hf : Takes (n - 1) (f true) [] rest Q) :
    Takes n (accept [.semicolon] >>= f) ts rest Q := by
  obtain ⟨t, ht, rfl⟩ := h
  exact .accept rfl (by simpa using ht) hf

/-- What starts with an identifier or a point is no empty statement. -/
theorem takes_semicolon_not {α : Type} {f : Bool → Parse α} {Q : α → Prop}
    (h : Starts (·.kind ∈ elementKinds) ts) (hf : Takes n (f false) ts rest Q) :
    Takes n (accept [.semicolon] >>= f) ts rest Q := by
  refine .acceptNot rfl ((h.follow rest).mono fun t ht h => ?_) hf
  rw [List.mem_singleton.mp h] at ht
  exact absurd ht (by decide)

/-- What starts with a word. -/
theorem starts_word {placed : Prop} {p : Position} {w : String} {Ls : List (Language Token)}
    (h : ts ∈ starting placed p (word w :: Ls).prod) : Starts (Token.IsWord w) ts := by
  obtain ⟨⟨_, ⟨t, ht, rfl⟩, us, -, rfl⟩, -⟩ := h
  exact starts_cons.mpr ht

/-- A word for an element starts it with an identifier. -/
theorem starts_element {w : String} (h : Starts (Token.IsWord w) ts) :
    Starts (·.kind ∈ elementKinds) ts :=
  h.mono fun t ht => by simp [elementKinds, ht.1]

/-- The name of a declaration is no keyword. -/
theorem starts_name {placed : Prop} {p : Position} {x : Text} {Ls : List (Language Token)}
    (h : ts ∈ starting placed p (Rendering.name x :: Ls).prod) :
    Starts (fun t => t.kind = .identifier ∧ ∀ w ∈ Token.softKeywords, ¬t.IsWord w) ts := by
  obtain ⟨⟨_, ⟨hx, t, ⟨hk, rfl⟩, rfl⟩, us, -, rfl⟩, -⟩ := h
  refine starts_cons.mpr ⟨hk, fun w hw ht => ?_⟩
  rw [ht.2] at hx
  simp only [Token.isSoftKeyword, List.any_eq_false, decide_eq_true_eq] at hx
  exact hx w hw rfl

/-- An element of an enumeration, or a lone semicolon. A value is what starts with no word for
another element. -/
theorem takes_enumElement (b : Option EnumElement)
    (h : ts ∈ statement (Rendering.enumElement placed) b) :
    Takes n enumElement ts rest fun a =>
      a.map (·.relocate nowhere) = b.map (·.relocate nowhere) := by
  rcases b with _ | o | v | r
  · exact takes_semicolon h (.pure rfl)
  · have first := starts_word h
    refine takes_semicolon_not (starts_element first) (.keyword rfl (first.follow rest) ?_)
    exact (takes_optionStatement h).yield fun p hp => by simp [EnumElement.relocate, hp]
  · have first := starts_name h
    have not {w : String} (hw : w ∈ Token.softKeywords) :
        Follow (¬Token.IsWord w ·) (ts ++ rest) :=
      (first.follow rest).mono fun t ht => ht.2 w hw
    refine takes_semicolon_not (first.mono fun t ht => by simp [elementKinds, ht.1])
      (.keywordNot rfl (not (by decide)) (.keywordNot rfl (not (by decide)) ?_))
    exact (takes_enumValueDecl h).yield fun w hw => by simp [EnumElement.relocate, hw]
  · have first := starts_word h
    refine takes_semicolon_not (starts_element first) (.keywordNot rfl (first.notWord rfl)
      (.keyword rfl (first.follow rest) ?_))
    exact (takes_reservedDecl h).yield fun q hq => by simp [EnumElement.relocate, hq]

theorem starts_enumElement {e : EnumElement} (h : ts ∈ Rendering.enumElement placed e) :
    Starts (·.kind ∈ elementKinds) ts := by
  cases e with
  | option o => exact starts_element (starts_word h)
  | value v => exact (starts_name h).mono fun t ht => by simp [elementKinds, ht.1]
  | reserved r => exact starts_element (starts_word h)

/-- An enumeration with its elements in braces. -/
theorem takes_enumDecl {e : EnumDecl} (h : ts ∈ Rendering.enumDecl placed e) :
    Takes n enumDecl ts rest fun d => d.relocate nowhere = e.relocate nowhere := by
  obtain ⟨⟨_, ⟨t, ht, rfl⟩, _, ⟨us, hu, vs, hv, rfl⟩, rfl⟩, -⟩ := h
  show Takes n enumDecl (t :: (us ++ vs)) rest _
  refine .within (.cons (takes_advance (by simp [ht.1])) fun _ _ => ?_)
  refine Takes.bind (takes_consumeName hu _) fun x hx => ?_
  refine (takes_statements (f := EnumElement.relocate nowhere) (fun _ _ => starts_enumElement)
    (fun b us hu rest => takes_enumElement b hu) hv).yield fun es hes => ?_
  simp [EnumDecl.relocate, hx, hes, nowhere]

end ProtoSchema.Grammar
