import ProtoSchema.Proofs.Carrying.Declaration
import ProtoSchema.Proofs.Expecting.Value
import ProtoSchema.Proofs.Tracing.Schema

/-!
# What declarations expect

Bodies, ranges, fields, enums and messages, in the order of their definitions. A declaration
that holds declarations has taken a token before it comes to them.
-/
namespace ProtoSchema

theorem Token.IsWord.ne_end {t : Token} {x : String} (h : t.IsWord x) :
    t.kind ≠ .endOfInput :=
  h.1 ▸ nofun

namespace Parse

variable {α β : Type}

theorem Traced.index_le {p : Parse α} (h : Traced p) (s : ParseState) :
    s.index ≤ (p s).2.index := by
  obtain ⟨_, run⟩ := h s
  exact run.passes.index_le

/-- What is made of a result takes no token. -/
theorem yield_state (p : Parse α) (f : α → β) (s : ParseState) :
    ((p >>= fun a => pure (f a)) s).2 = (p s).2 := by
  rw [bind_eq]
  rcases p s with ⟨_ | _, _⟩ <;> rfl

end Parse

namespace Grammar

open Parse Fork

variable {w : Fork} {n : ℕ} {pre firm : Token → Prop}

/-! ## Parts -/

/-- Where an element is read in braces, neither they nor the source end. -/
theorem sincere_body {α : Type} {p q : Parse (Option α)}
    (h : w.Sincere n (fun t => t.kind ≠ .rightBrace ∧ t.kind ≠ .endOfInput) ⊥ p q) :
    w.Sincere n pre (·.kind = .leftBrace) (body p) (body q) := by
  refine .bind (sincere_mark nofun rfl) fun _ _ => .until ?_ fun as bs => ?_
  · refine .unlessEnd (fun t ht x hx fits => ht ?_) (expect_bind _ _) (expect_bind _ _) h
    rw [List.mem_singleton.mp hx] at fits
    exact (fits.spelling rfl).1
  · exact .yield (sincere_advance fun t _ ht => ht ▸ nofun)

/-- The first number of a range, with a sign or without. -/
theorem sincere_rangeNumber (signed : Bool) :
    w.Sincere n pre ⊥ (rangeNumber signed .anInteger) (rangeNumber signed .anInteger) := by
  cases signed
  · exact sincere_unsignedInteger.loose
  · exact sincere_signedInteger

/-- The last number of a range, where the word `max` has been seen to be absent. -/
theorem sincere_rangeLast (signed : Bool) : w.Sincere n (fun t => ¬t.IsWord "max") ⊥
    (rangeNumber signed .anIntegerOrMax) (rangeNumber signed .anIntegerOrMax) := by
  cases signed
  · exact sincere_unsignedMax
  · exact sincere_signedMax

/-- In a range the word `max` is tried before the number, which names both. -/
theorem sincere_tagRange (signed : Bool) :
    w.Sincere n pre ⊥ (tagRange signed) (tagRange signed) := by
  refine .within (.start fun t u _ _ => (sincere_rangeNumber signed).bind fun a b => ?_)
  refine .word ?_ (.pure _ _)
  refine .advance_bind (fun _ _ ht => ht.2.ne_end) fun _ _ _ => .word ?_ ?_
  · exact .yield (sincere_advance fun _ _ ht => ht.2.ne_end)
  · exact .yield ((sincere_rangeLast signed).restrict fun _ _ => And.right)

theorem sincere_tagRanges (signed : Bool) :
    w.Sincere n pre ⊥ (tagRanges signed) (tagRanges signed) :=
  .separatedBy nofun (sincere_tagRange signed) (sincere_tagRange signed)

/-- Behind the word, a literal starts names and anything else is taken for a range. -/
theorem sincere_reservedDecl (signed : Bool)
    (hpre : ∀ t, t.WellMade → pre t → t.kind ≠ .endOfInput) :
    w.Sincere n pre firm (reservedDecl signed) (reservedDecl signed) := by
  refine .within (.advance_bind hpre fun t _ _ => .check ?_ ?_)
  · have names : w.Sincere (n + 1) ⊤ (·.kind = .string)
        (separatedBy .comma (stringLiteral (.aString "reserved name")))
        (separatedBy .comma (stringLiteral (.aString "reserved name"))) :=
      .separatedBy nofun sincere_stringLiteral sincere_stringLiteral.loose
    refine (names.takes fun _ => And.right).bind fun xs ys => ?_
    exact .yield (.loose (sincere_mark nofun rfl))
  · refine (sincere_tagRanges signed).bind fun rs rs' => ?_
    exact .yield (.loose (sincere_mark nofun rfl))

theorem sincere_extensionRangeDecl (hpre : ∀ t, t.WellMade → pre t → t.kind ≠ .endOfInput) :
    w.Sincere n pre firm extensionRangeDecl extensionRangeDecl := by
  refine .within
    (.advance_bind hpre fun t _ _ => (sincere_tagRanges false).bind fun rs rs' => ?_)
  exact sincere_optionalCompactOptions.bind fun os os' =>
    .yield (.loose (sincere_mark nofun rfl))

/-- What stands behind the type of a field. -/
theorem sincere_fieldRest {α : Type} (f g : Text → ℤ → List CompactOption → α) :
    w.Sincere n pre ⊥
    (do
      let name ← consumeName (.aName "field name")
      consumeMark .equals "="
      let number ← fieldNumber
      let options ← optionalCompactOptions
      consumeMark .semicolon ";"
      return f name number options)
    (do
      let name ← consumeName (.aName "field name")
      consumeMark .equals "="
      let number ← fieldNumber
      let options ← optionalCompactOptions
      consumeMark .semicolon ";"
      return g name number options) := by
  refine sincere_consumeName.loose.bind fun x y =>
    .bind (.loose (sincere_mark nofun rfl)) fun _ _ => ?_
  refine sincere_fieldNumber.loose.bind fun a b =>
    sincere_optionalCompactOptions.bind fun os os' => ?_
  exact .yield (.loose (sincere_mark nofun rfl))

/-- A field without a cardinality starts as its type does. -/
theorem sincere_fieldDecl (c c' : Option Cardinality) (t u : Token) : w.Sincere n pre
    (fun t => t.kind = .dot ∨ t.kind = .identifier) (fieldDecl c t) (fieldDecl c' u) :=
  .within (sincere_typeName.bind fun _ _ => sincere_fieldRest _ _)

/-- The type of the keys is one of the words that are named together. -/
theorem sincere_mapKeyType : w.Sincere n pre ⊥ mapKeyType mapKeyType := by
  refine .split (fun t => t.kind = .identifier && isMapKeyType t.text)
    (.current fun t _ ht => ?_)
    (.start fun t u ht hu => ?_)
  · obtain ⟨hk, key⟩ : t.kind = .identifier ∧ isMapKeyType t.text = true := by
      simpa using ht.2
    simp only [hk, key, ne_eq, not_true_eq_false, decide_false, Bool.not_true, Bool.or_self,
      Bool.false_eq_true, if_false]
    exact .yield (sincere_advance fun v _ hv => by rw [hv, hk]; nofun)
  · have other {t : Token}
        (ht : (decide (t.kind = .identifier) && isMapKeyType t.text) = false) :
        (decide (t.kind ≠ .identifier) || !isMapKeyType t.text) = true := by
      by_cases hk : t.kind = .identifier <;> simp_all
    rw [if_pos (other ht.2), if_pos (other hu.2), expect_bind, expect_bind]
    refine sincere_expect fun v hv => ⟨id, fun x hx fits => ?_⟩
    rw [List.mem_singleton.mp hx] at fits
    have key : v.kind = .identifier ∧ isMapKeyType v.text = true := fits
    simp [key] at hv

theorem sincere_mapFieldDecl :
    w.Sincere n pre (·.IsWord "map") mapFieldDecl mapFieldDecl := by
  refine .within (.bind (sincere_consumeWord rfl) fun t u => ?_)
  refine .bind (.loose (sincere_mark nofun rfl)) fun _ _ => ?_
  refine sincere_mapKeyType.bind fun k l =>
    .bind (.loose (sincere_mark nofun rfl)) fun _ _ => ?_
  refine sincere_typeName.loose.bind fun x y =>
    .bind (.loose (sincere_mark nofun rfl)) fun _ _ => ?_
  exact sincere_fieldRest _ _

/-! ## Enums -/

theorem sincere_enumValueDecl : w.Sincere n pre ⊥ enumValueDecl enumValueDecl := by
  refine .within (.start fun t u _ _ => sincere_consumeName.loose.bind fun x y => ?_)
  refine .bind (.loose (sincere_mark nofun rfl)) fun _ _ =>
    sincere_signedInteger.bind fun a b => ?_
  exact sincere_optionalCompactOptions.bind fun os os' =>
    .yield (.loose (sincere_mark nofun rfl))

/-- Whatever starts no other element of an enum is taken for the name of a value. -/
theorem sincere_enumElement : w.Sincere n pre ⊥ enumElement enumElement := by
  refine .accept (by decide) (.pure _ _)
    (.keyword (by decide) ?_ (.keyword (by decide) ?_ ?_))
  · exact .yield (sincere_optionStatement fun _ _ ht => ht.2.ne_end)
  · exact .yield (sincere_reservedDecl true fun _ _ ht => ht.2.ne_end)
  · exact .yield sincere_enumValueDecl

theorem sincere_enumDecl (hpre : ∀ t, t.WellMade → pre t → t.kind ≠ .endOfInput) :
    w.Sincere n pre firm enumDecl enumDecl := by
  refine .within
    (.advance_bind hpre fun t _ _ => sincere_consumeName.loose.bind fun x y => ?_)
  exact .yield (.loose (sincere_body sincere_enumElement))

/-! ## Messages -/

section Messages

variable {element element' : Parse (Option MessageElement)}
  (he : w.Sincere (n + 1) ⊤ ⊥ element element')

include he

theorem sincere_groupDeclOf (hpre : ∀ t, t.WellMade → pre t → t.kind ≠ .endOfInput)
    (c c' : Option Cardinality) (t u : Token) :
    w.Sincere n pre firm (groupDeclOf element c t) (groupDeclOf element' c' u) := by
  refine .within
    (.advance_bind hpre fun _ _ _ => sincere_consumeName.loose.bind fun x y => ?_)
  refine .bind (.loose (sincere_mark nofun rfl)) fun _ _ =>
    sincere_fieldNumber.loose.bind fun a b => ?_
  refine sincere_optionalCompactOptions.bind fun os os' => ?_
  exact .yield (.loose (sincere_body he.loose))

/-- What stands behind the cardinality of a member. -/
theorem sincere_uncounted (c c' : Option Cardinality) (t u : Token) :
    w.Sincere n pre (fun t => t.kind = .dot ∨ t.kind = .identifier)
      (do
        if ← checkKeyword "group" then return Member.group (← groupDeclOf element c t)
        else return Member.field (← fieldDecl c t))
      (do
        if ← checkKeyword "group" then return Member.group (← groupDeclOf element' c' u)
        else return Member.field (← fieldDecl c' u)) := by
  refine .keyword (by decide) ?_ (.yield (sincere_fieldDecl c c' t u))
  exact .yield (sincere_groupDeclOf he (fun _ _ ht => ht.2.ne_end) c c' t u)

omit he in
/-- Only soft keywords stand for a cardinality. -/
theorem soft_of_cardinality? {t : Token} (h : (cardinality? t).isSome = true) :
    t.soft = true := by
  unfold cardinality? at h
  split at h
  · assumption
  · cases h

omit he in
/-- Only a word is a cardinality. -/
theorem identifier_of_cardinality? {t : Token} (made : t.WellMade)
    (h : (cardinality? t).isSome = true) : t.kind = .identifier := by
  have soft := made.soft_eq.symm.trans (soft_of_cardinality? h)
  exact of_decide_eq_true (Bool.and_eq_true_iff.mp soft).1

/-- Behind a cardinality a group or a field may stand. -/
theorem sincere_memberOf : w.Sincere n pre (fun t => t.kind = .dot ∨ t.kind = .identifier)
    (memberOf element) (memberOf element') := by
  refine .split (fun t => (cardinality? t).isSome) (.current fun t made ht => ?_)
    (.start fun t u ht hu => ?_)
  · have name := identifier_of_cardinality? made ht.2
    have behind : w.Sincere (n + 1 + 1) ⊤ ⊥ element element' :=
      he.further (Nat.le_succ _)
    rw [if_pos ht.2, if_pos ht.2]
    refine .advance_bind (fun v _ hv => ?_) fun _ _ _ =>
      (sincere_uncounted behind _ _ t t).loose
    rw [hv, name]
    nofun
  · have none {t : Token} (ht : (cardinality? t).isSome = false) :
        ¬(cardinality? t).isSome = true := by
      simp [ht]
    rw [if_neg (none ht.2), if_neg (none hu.2)]
    exact sincere_uncounted he _ _ t u

omit he in
/-- A token at which nothing starts that a oneof may hold is rejected. -/
theorem oneofElementOf_error (element : Parse (Option MessageElement))
    {s : ParseState} {t : Token} {rest : List Token} (ht : s.ahead = t :: rest)
    (made : t.WellMade) (dot : t.kind ≠ .dot)
    (name : t.kind = .identifier → (cardinality? t).isSome = true) :
    ∃ complaint rule, oneofElementOf element s =
      (.error (.unexpected ⟨complaint, rule, t⟩), s) ∧
      ∀ xs, complaint = .expected xs → xs = [.typeName] := by
  have here : current s = (.ok t, s) := peeks_current s t rest ht
  have other (x : String) (hx : x ∈ Token.softKeywords)
      (hc : Cardinality.ofText? (Text.ofString x) = none) :
      checkKeyword x s = (.ok false, s) := by
    rw [peeks_checkKeyword x s t rest ht]
    congr 2
    refine Bool.eq_false_iff.mpr fun hw => ?_
    have word := (made.keyword_iff hx).mp hw
    have counted := name word.1
    rw [cardinality?, word.2, hc, ite_self] at counted
    cases counted
  have no_option := other "option" (by decide) (by decide)
  have no_group := other "group" (by decide) (by decide)
  rw [oneofElementOf, bind_of_ok here, bind_of_ok no_option, if_neg Bool.false_ne_true,
    bind_of_ok no_group, if_neg Bool.false_ne_true]
  by_cases counted : (cardinality? t).isSome = true
  · rw [if_pos counted, reject_eq ht]
    exact ⟨_, _, rfl, fun _ hxs => Complaint.noConfusion hxs⟩
  · have failed : fieldDecl none t s =
        (.error (.unexpected ⟨.expected [.typeName], some .fieldDecl, t⟩), s) :=
      within_eq
        (bind_of_error (typeName_error (s := { s with rules := .fieldDecl :: s.rules }) ht dot
        fun hk => counted (name hk)))
    rw [if_neg counted, bind_of_error failed]
    exact ⟨_, _, rfl, fun xs hxs => (Complaint.expected.inj hxs).symm⟩

/-- A cardinality in a oneof is rejected in words that name nothing as expected. -/
theorem sincere_oneofElementOf :
    w.Sincere n pre ⊥ (oneofElementOf element) (oneofElementOf element') := by
  have others {t : Token} (h : (decide (t.kind = .dot) ||
      decide (t.kind = .identifier) && (cardinality? t).isNone) = false) :
      t.kind ≠ .dot ∧ (t.kind = .identifier → (cardinality? t).isSome = true) := by
    cases hc : cardinality? t <;> simp_all
  refine .split (fun t => t.kind = .dot || t.kind = .identifier && (cardinality? t).isNone)
    (.current fun t made ht => ?_)
    fun s _ => .of_error (fun t rest hs made ht => ?_) fun t rest hs made ht => ?_
  · have starts : t.kind = .dot ∨ t.kind = .identifier ∧ (cardinality? t).isNone = true := by
      simpa using ht.2
    have uncounted : ¬(cardinality? t).isSome = true := fun counted => by
      have name := identifier_of_cardinality? made counted
      rcases starts with dot | ⟨-, none⟩
      · rw [name] at dot
        cases dot
      · simp_all
    simp only [if_neg uncounted]
    refine .keyword (by decide) ?_ (.keyword (by decide) ?_ ?_)
    · exact .yield (sincere_optionStatement fun _ _ hu => hu.2.ne_end)
    · exact .yield (sincere_groupDeclOf he (fun _ _ hu => hu.2.ne_end) none none t t)
    · refine .yield ((sincere_fieldDecl none none t t).takes fun u hu => ?_)
      rw [hu.1.1]
      exact starts.imp_right And.left
  · obtain ⟨complaint, rule, herror, only⟩ :=
      oneofElementOf_error element hs made (others ht.2).1 (others ht.2).2
    refine ⟨_, herror, fun _ hw _ => unfit_unexpected fun xs hxs x hx fits => ?_⟩
    rw [only xs hxs] at hx
    rw [List.mem_singleton.mp hx] at fits
    obtain ⟨dot, counted⟩ := others hw.2
    exfalso
    rcases fits with hk | ⟨hk, plain⟩
    · exact dot hk
    · rw [soft_of_cardinality? (counted hk)] at plain
      cases plain
  · obtain ⟨complaint, rule, herror, -⟩ :=
      oneofElementOf_error element' hs made (others ht.2).1 (others ht.2).2
    exact ⟨_, herror⟩

theorem sincere_oneofDeclOf (hpre : ∀ t, t.WellMade → pre t → t.kind ≠ .endOfInput) :
    w.Sincere n pre firm (oneofDeclOf element) (oneofDeclOf element') := by
  have behind : w.Sincere (n + 1 + 1) ⊤ ⊥ element element' :=
    he.further (Nat.le_succ _)
  refine .within
    (.advance_bind hpre fun t _ _ => sincere_consumeName.loose.bind fun x y => ?_)
  exact .yield (.loose (sincere_body (.yield (sincere_oneofElementOf behind))))

theorem sincere_messageDeclOf (hpre : ∀ t, t.WellMade → pre t → t.kind ≠ .endOfInput) :
    w.Sincere n pre firm (messageDeclOf element) (messageDeclOf element') := by
  refine .within
    (.advance_bind hpre fun t _ _ => sincere_consumeName.loose.bind fun x y => ?_)
  exact .yield (.loose (sincere_body he.loose))

theorem sincere_extensionDeclOf (hpre : ∀ t, t.WellMade → pre t → t.kind ≠ .endOfInput) :
    w.Sincere n pre firm (extensionDeclOf element) (extensionDeclOf element') := by
  have behind : w.Sincere (n + 1 + 1) ⊤ ⊥ element element' :=
    he.further (Nat.le_succ _)
  refine .within (.advance_bind hpre fun t _ _ => sincere_typeName.loose.bind fun x y => ?_)
  exact .yield (.loose (sincere_body (.yield (sincere_memberOf behind).loose)))

omit he in
/-- A map field that starts as one takes the word and the bracket. -/
theorem mapFieldDecl_index {s : ParseState} {t u : Token} {rest : List Token}
    (hs : s.ahead = t :: u :: rest) (ht : t.IsWord "map") (hu : u.kind = .leftAngle) :
    s.index + 2 ≤ (mapFieldDecl s).2.index := by
  let entered : ParseState := { s with rules := .mapFieldDecl :: s.rules }
  have word : consumeWord "map" entered = (.ok t, entered.past 1) := by
    rw [consumeWord, bind_of_ok (checkWord_eq (s := entered) hs "map"),
      decide_eq_true ht, if_pos rfl,
      advance_eq (s := entered) hs ht.ne_end]
  have angle : consumeMark .leftAngle "<" (entered.past 1) = (.ok (), entered.past 2) := by
    rw [consumeMark,
      bind_of_ok (consume_eq (ParseState.ahead_past_one (s := entered) hs) hu nofun _)]
    rfl
  rw [mapFieldDecl, within_run, bind_of_ok word, bind_of_ok angle]
  show (entered.past 2).index ≤ _
  refine Traced.index_le ?_ (entered.past 2)
  refine traced_mapKeyType.bind fun k => (traced_consumeMark _ _).bind fun _ => ?_
  refine traced_typeName.bind fun v => (traced_consumeMark _ _).bind fun _ => ?_
  refine (traced_consumeName _).bind fun x => (traced_consumeMark _ _).bind fun _ => ?_
  refine traced_fieldNumber.bind fun n => traced_optionalCompactOptions.bind fun os => ?_
  exact (traced_consumeMark _ _).yield

/-- A map field, or a member whose type is called `map`. -/
def fieldAt (element : Parse (Option MessageElement)) (mapped : Bool) :
    Parse (Option MessageElement) := do
  if mapped then return some (.mapField (← mapFieldDecl))
  else return some (.member (← memberOf element))

/-- Whatever starts no other element of a message is taken for a member. -/
theorem sincere_messageElementOf :
    w.Sincere n pre ⊥ (messageElementOf element) (messageElementOf element') := by
  refine .accept (by decide) (.pure _ _) (.keyword (by decide) ?_ (.keyword (by decide) ?_
    (.keyword (by decide) ?_ (.keyword (by decide) ?_ (.keyword (by decide) ?_
    (.keyword (by decide) ?_ (.keyword (by decide) ?_ ?_)))))))
  · exact .yield (sincere_optionStatement fun _ _ ht => ht.2.ne_end)
  · exact .yield (sincere_messageDeclOf he fun _ _ ht => ht.2.ne_end)
  · exact .yield (sincere_enumDecl fun _ _ ht => ht.2.ne_end)
  · exact .yield (sincere_extensionDeclOf he fun _ _ ht => ht.2.ne_end)
  · exact .yield (sincere_extensionRangeDecl fun _ _ ht => ht.2.ne_end)
  · exact .yield (sincere_reservedDecl false fun _ _ ht => ht.2.ne_end)
  · exact .yield (sincere_oneofDeclOf he fun _ _ ht => ht.2.ne_end)
  show w.Sincere n _ _ (atMapField >>= _) (atMapField >>= _)
  rw [atMapField_bind, atMapField_bind]
  have looked {A : Token → Prop} : w.Sincere n (fun t => A t ∧ t.IsWord "map") ⊤
      (look 1 >>= fun u => fieldAt element (decide (u.kind = .leftAngle)))
      (look 1 >>= fun u => fieldAt element' (decide (u.kind = .leftAngle))) := by
    refine sincere_look (fun _ _ ht => ht.2.ne_end)
      (fun b => ?_) fun s t u rest _ hs ht hu => ?_
    · cases b
      · exact .yield ((sincere_memberOf he).takes fun _ ht => .inr ht.2.1)
      · exact .yield (sincere_mapFieldDecl.takes fun _ ht => ht.2)
    · have two := mapFieldDecl_index hs ht.2 (of_decide_eq_true hu)
      rw [← yield_state mapFieldDecl (fun x => some (MessageElement.mapField x))] at two
      exact ⟨two, two⟩
  exact .word looked (.yield (sincere_memberOf he).loose)

end Messages

theorem sincere_messageElement : w.Sincere n ⊤ ⊥ messageElement messageElement :=
  .recursive fun _ _ _ h => sincere_messageElementOf h

end Grammar

end ProtoSchema
