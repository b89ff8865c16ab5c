import ProtoSchema.Proofs.Carrying.Schema

/-!
# Productions that end in a mark

What a production depends on is in general one token more than it takes. A production that
ends in a semicolon or in a closing brace does not depend on that token: where it yields
something, it yields the same in front of any other tokens. The statements of the top level
are such productions.
-/
namespace ProtoSchema

open Parse

variable {α β : Type}

namespace Transfer

/-- Where `p` yields something on the first list it has taken a token, and `q` comes to the
same on the second list if that has the tokens that `p` takes. -/
def Closes (w : Transfer) (f : α → α) (p q : Parse α) : Prop :=
  ∀ (s s' : ParseState) (a : α), s.tokens = w.source → s.Bounded → p s = (.ok a, s') →
    ∃ k, s' = s.past (k + 1) ∧ s'.Bounded ∧
      (w.Agrees s.index (s.index + k) → q (s.on w.target) = (.ok (f a), s'.on w.target))

variable {w : Transfer} {f : α → α} {g : β → β} {p q : Parse α}

/-! ## Sequence -/

/-- The last part of a sequence closes it. -/
theorem Carries.closes {k₁ k₂ : α → Parse β} (h : w.Carries f p q)
    (hk : ∀ a, w.Closes g (k₁ a) (k₂ (f a))) : w.Closes g (p >>= k₁) (q >>= k₂) := by
  intro s s' b hs hb hrun
  obtain ⟨a, t, hp, hlast⟩ := bind_ok hrun
  obtain ⟨l, hl, hlb, same⟩ := h s hs hb
  rw [hp] at hl same
  obtain rfl : t = s.past l := hl
  obtain ⟨k, hk', hkb, last⟩ := hk a (s.past l) s' b hs hlb hlast
  refine ⟨l + k, by rw [hk', ParseState.past_past, Nat.add_assoc], hkb, fun ha => ?_⟩
  rw [bind_of_ok (same (ha.mono (Nat.le_refl _) (by omega)) clean_ok)]
  exact last (ha.mono (by simp) (by simp [Nat.add_assoc]))

/-- A value that is changed afterwards depends on no more tokens. -/
theorem Closes.yield {k₁ k₂ : α → β} (h : w.Closes f p q) (hk : ∀ a, k₂ (f a) = g (k₁ a)) :
    w.Closes g (p >>= fun a => Pure.pure (k₁ a)) (q >>= fun a => Pure.pure (k₂ a)) := by
  intro s s' b hs hb hrun
  obtain ⟨a, t, hp, hlast⟩ := bind_ok hrun
  obtain ⟨hb', rfl⟩ := Prod.mk.inj hlast
  obtain rfl : k₁ a = b := Except.ok.inj hb'
  obtain ⟨k, hk', hkb, same⟩ := h s t a hs hb hp
  refine ⟨k, hk', hkb, fun ha => ?_⟩
  rw [bind_of_ok (same ha), hk]
  rfl

/-- The rules that are open have no part in what a step depends on. -/
theorem Closes.within {rule : Rule} (h : w.Closes f p q) :
    w.Closes f (within rule p) (Parse.within rule q) := by
  intro s s' a hs hb hrun
  rcases hp : p { s with rules := rule :: s.rules } with ⟨r, t⟩
  rw [within_eq hp] at hrun
  obtain ⟨rfl, rfl⟩ := Prod.mk.inj hrun
  obtain ⟨k, rfl, hkb, same⟩ := h { s with rules := rule :: s.rules } t a hs hb hp
  refine ⟨k, rfl, hkb, fun ha => ?_⟩
  rw [within_eq (same ha)]
  rfl

/-! ## Choice -/

section Choice

variable {k₁ k₂ : Bool → Parse α}

/-- A test of the next token chooses between two steps. -/
theorem Closes.test {t : Parse Bool} {b : Token → Bool} (ht : Peeks t b)
    (hb : ∀ φ u, b (Token.relocate φ u) = b u) (h₁ : w.Closes f (k₁ true) (k₂ true))
    (h₂ : w.Closes f (k₁ false) (k₂ false)) : w.Closes f (t >>= k₁) (t >>= k₂) := by
  intro s s' a hs hbound hrun
  obtain ⟨u, rest, hu⟩ := hbound.exists_cons
  rw [bind_of_ok (ht s u rest hu)] at hrun
  have either : w.Closes f (k₁ (b u)) (k₂ (b u)) := by
    cases b u with
    | true => exact h₁
    | false => exact h₂
  obtain ⟨k, hk, hkb, same⟩ := either s s' a hs hbound hrun
  refine ⟨k, hk, hkb, fun ha => ?_⟩
  obtain ⟨rest', hu'⟩ := ha.ahead hs hu (Nat.le_refl _) (by omega)
  rw [bind_of_ok (ht _ _ rest' hu'), hb]
  exact same ha

theorem Closes.word {x : String} (h₁ : w.Closes f (k₁ true) (k₂ true))
    (h₂ : w.Closes f (k₁ false) (k₂ false)) :
    w.Closes f (checkWord x >>= k₁) (checkWord x >>= k₂) :=
  .test (peeks_checkWord x) (fun _ _ => rfl) h₁ h₂

theorem Closes.keyword {x : String} (h₁ : w.Closes f (k₁ true) (k₂ true))
    (h₂ : w.Closes f (k₁ false) (k₂ false)) :
    w.Closes f (checkKeyword x >>= k₁) (checkKeyword x >>= k₂) :=
  .test (peeks_checkKeyword x) (fun _ _ => rfl) h₁ h₂

/-- A step that always rejects yields nothing to be compared. -/
theorem closes_reject (complaint : Complaint) :
    w.Closes f (reject complaint) (reject complaint) := by
  intro s s' a hs hb hrun
  obtain ⟨t, rest, ht⟩ := hb.exists_cons
  rw [reject_eq ht] at hrun
  cases hrun

end Choice

/-! ## Tokens -/

/-- The token that is taken here is no end token. -/
theorem advance_agrees {s : ParseState} (hs : s.tokens = w.source)
    (hb : s.Bounded) {t : Token} {rest : List Token} (ht : s.ahead = t :: rest)
    (hk : t.kind ≠ .endOfInput) :
    advance s = (.ok t, s.past 1) ∧ (s.past 1).Bounded ∧ (w.Agrees s.index s.index →
      advance (s.on w.target) = (.ok (t.relocate w.move), (s.past 1).on w.target)) := by
  refine ⟨advance_eq ht hk, hb.past_one ht hk, fun ha => ?_⟩
  obtain ⟨rest', ht'⟩ := ha.ahead hs ht (Nat.le_refl _) (Nat.le_refl _)
  exact advance_eq ht' hk

/-- A token that is asked for is all that the step depends on, unless it is the end. -/
theorem closes_consume {kind : TokenKind} (hk : kind ≠ .endOfInput) (wanted : Expectation) :
    w.Closes (Token.relocate w.move) (consume kind wanted) (consume kind wanted) := by
  intro s s' a hs hb hrun
  obtain ⟨t, rest, ht⟩ := hb.exists_cons
  rw [consume, bind_of_ok (peeks_check kind s t rest ht)] at hrun
  by_cases h : t.kind = kind
  · obtain ⟨taken, bounded, same⟩ := advance_agrees hs hb ht (h ▸ hk)
    simp only [h, decide_true, if_true, taken] at hrun
    obtain ⟨ha, rfl⟩ := Prod.mk.inj hrun
    obtain rfl := Except.ok.inj ha
    refine ⟨0, rfl, bounded, fun ha => ?_⟩
    obtain ⟨rest', ht'⟩ := ha.ahead hs ht (Nat.le_refl _) (Nat.le_refl _)
    rw [consume, bind_of_ok (peeks_check kind _ _ rest' ht')]
    simpa [Token.relocate, h] using same ha
  · simp only [h, decide_false, Bool.false_eq_true, if_false, expect, reject_eq ht] at hrun
    cases hrun

theorem closes_semicolon :
    w.Closes id (consumeMark .semicolon ";") (consumeMark .semicolon ";") :=
  (closes_consume (by decide) _).yield fun _ => rfl

/-- A choice that is settled by taking a token, or goes on with another step that closes. -/
theorem Closes.accept {kinds : List TokenKind} (hkinds : .endOfInput ∉ kinds)
    {k₁ k₂ : Bool → Parse α} {a : α} (h₁ : k₁ true = pure a) (h₂ : k₂ true = pure (f a))
    (h : w.Closes f (k₁ false) (k₂ false)) :
    w.Closes f (accept kinds >>= k₁) (Parse.accept kinds >>= k₂) := by
  intro s s' b hs hb hrun
  obtain ⟨t, rest, ht⟩ := hb.exists_cons
  by_cases hk : t.kind ∈ kinds
  · have hend : t.kind ≠ .endOfInput := fun he => hkinds (he ▸ hk)
    have taken := accept_eq ht hkinds
    rw [if_pos hk] at taken
    rw [bind_of_ok taken, h₁] at hrun
    obtain ⟨hb', rfl⟩ := Prod.mk.inj hrun
    obtain rfl : a = b := Except.ok.inj hb'
    refine ⟨0, rfl, hb.past_one ht hend, fun ha => ?_⟩
    obtain ⟨rest', ht'⟩ := ha.ahead hs ht (Nat.le_refl _) (Nat.le_refl _)
    have taken' := accept_eq ht' hkinds
    rw [if_pos (show (t.relocate w.move).kind ∈ kinds from hk)] at taken'
    rw [bind_of_ok taken', h₂]
    rfl
  · have stays := accept_eq ht hkinds
    rw [if_neg hk] at stays
    rw [bind_of_ok stays] at hrun
    obtain ⟨k, hk', hkb, same⟩ := h s s' b hs hb hrun
    refine ⟨k, hk', hkb, fun ha => ?_⟩
    obtain ⟨rest', ht'⟩ := ha.ahead hs ht (Nat.le_refl _) (by omega)
    have stays' := accept_eq ht' hkinds
    rw [if_neg (show (t.relocate w.move).kind ∉ kinds from hk)] at stays'
    rw [bind_of_ok stays']
    exact same ha

/-- A loop up to a token of a kind comes to such a token. -/
theorem loop_stop {kind : TokenKind} {s s' : ParseState} {as : List α} {t : Token}
    {rest : List Token} (h : whileMore (return !(← check kind)) p s = (.ok as, s'))
    (ht : s'.ahead = t :: rest) : t.kind = kind := by
  -- The loop has come to a place where the test fails, and the test only looks.
  obtain ⟨u, hstop⟩ := whileMore_ok h
  obtain ⟨b, u', hcheck, hstop⟩ := bind_ok hstop
  obtain ⟨hb, rfl⟩ := Prod.mk.inj hstop
  obtain ⟨v, u'', hcurrent, hcheck⟩ := bind_ok hcheck
  obtain ⟨hkind, rfl⟩ := Prod.mk.inj hcheck
  obtain rfl := look_ok hcurrent
  rw [peeks_current _ t rest ht] at hcurrent
  obtain rfl : t = v := Except.ok.inj (Prod.mk.inj hcurrent).1
  rw [← Except.ok.inj hkind] at hb
  simpa using hb

/-- A loop up to a token of a kind, and that token. -/
theorem closes_loop {kind : TokenKind} (hkind : kind ≠ .endOfInput) {k₁ k₂ : List α → β}
    (h : w.Carries f p q) (hk : ∀ as, k₂ (as.map f) = g (k₁ as)) :
    w.Closes g
      (whileMore (return !(← check kind)) p >>= fun as => advance >>= fun _ =>
        Pure.pure (k₁ as))
      (whileMore (return !(← check kind)) q >>= fun as =>
        advance >>= fun _ => Pure.pure (k₂ as)) := by
  have more : w.Carries id (return !(← check kind)) (return !(← check kind)) :=
    .peek_last ((peeks_check kind).bind_pure (! ·)) fun _ _ => rfl
  intro s s' b hs hb hrun
  obtain ⟨as, t, hloop, hlast⟩ := bind_ok hrun
  obtain ⟨k, hk', hkb, same⟩ := more.whileMore h s hs hb
  rw [hloop] at hk' same
  obtain rfl : t = s.past k := hk'
  obtain ⟨u, rest, hu⟩ := hkb.exists_cons
  have found : u.kind ≠ .endOfInput := loop_stop hloop hu ▸ hkind
  obtain ⟨taken, bounded, taken'⟩ := advance_agrees (w := w) (s := s.past k) hs hkb hu found
  rw [bind_of_ok taken] at hlast
  obtain ⟨hb', rfl⟩ := Prod.mk.inj hlast
  obtain rfl : k₁ as = b := Except.ok.inj hb'
  refine ⟨k, ParseState.past_past .., bounded, fun ha => ?_⟩
  rw [bind_of_ok (same ha clean_ok)]
  have last : advance ((s.past k).on w.target) = _ := taken' (ha.mono (by simp) (by simp))
  rw [bind_of_ok last, hk]
  rfl

end Transfer

/-! ## Other tokens in place of the end -/

section Front

open Transfer

variable {us vs : List Token} {e : Token} {i : ℕ}

/-- What is ahead behind some of the tokens two lists share. -/
theorem ParseState.ahead_past_start (hi : i ≤ us.length) (ts : List Token) :
    ((start (us ++ ts)).past i).ahead = us.drop i ++ ts := by
  simp [start, past, ahead, List.drop_append_of_le_length hi]

theorem Ended.kind_last (h : Ended (us ++ [e])) : e.kind = .endOfInput := by
  cases h.append_cons.1 with
  | last _ he => exact he
  | cons _ _ h => exact absurd rfl h.ne_nil

/-- From anywhere in a list of tokens there is an end ahead. -/
theorem Ended.bounded_past (h : Ended (us ++ [e])) (hi : i ≤ us.length) :
    ((ParseState.start (us ++ [e])).past i).Bounded :=
  ⟨e, by simp [ParseState.ahead_past_start hi], h.kind_last⟩

/-- Two lists with the same tokens in front. -/
def fronted (us ts ts' : List Token) : Transfer :=
  ⟨(us ++ ts).toArray, (us ++ ts').toArray, id⟩

/-- Two lists agree wherever they share their tokens. -/
theorem agrees_fronted {ts ts' : List Token} {i j : ℕ} (hj : j < us.length) :
    (fronted us ts ts').Agrees i j := by
  apply agrees_same
  intro k _ hk
  have inside : k < us.length := by omega
  simp [List.getElem?_append_left inside]

section Step

variable {f : (Position → Position) → α → α} {p : Parse α} {a : α} {s' : ParseState}
  (h : Ended (us ++ [e])) (hi : i ≤ us.length)
  (ha : p ((ParseState.start (us ++ [e])).past i) = (.ok a, s'))
  (carries : ∀ w : Transfer, w.Carries (f w.move) p p)

include h hi ha carries

/-- Where no position changes, what is read stays as it is. -/
theorem read_stays : f id a = a := by
  have clean : Clean ((ParseState.start (us ++ [e])).past i).index
      (p ((ParseState.start (us ++ [e])).past i)) := by
    rw [ha]
    exact clean_ok
  have stays := (carries ⟨_, _, id⟩).stays (h.bounded_past hi) clean
  rw [ha] at stays
  exact Except.ok.inj stays

/-- What ends in a mark is read in front of other tokens as in front of the end. -/
theorem read_append (closes : ∀ w : Transfer, w.Closes (f w.move) p p) (vs : List Token) :
    ∃ j, i < j ∧ j ≤ us.length ∧ s' = (ParseState.start (us ++ [e])).past j ∧
      p ((ParseState.start (us ++ vs)).past i) =
        (.ok a, (ParseState.start (us ++ vs)).past j) := by
  have stays := read_stays h hi ha carries
  obtain ⟨k, rfl, bounded, same⟩ := closes (fronted us [e] vs)
    ((ParseState.start (us ++ [e])).past i) s' a rfl (h.bounded_past hi) ha
  -- The end token is not taken, so the tokens taken are among those that the lists share.
  have inside : i + (k + 1) ≤ us.length := by
    have lt := bounded.index_lt
    simp only [ParseState.start, ParseState.past, List.size_toArray, List.length_append,
      List.length_singleton] at lt
    omega
  have read : p ((ParseState.start (us ++ vs)).past i) =
      (.ok (f id a), (ParseState.start (us ++ vs)).past (i + (k + 1))) := by
    rw [← ParseState.past_past]
    apply same (agrees_fronted ?_)
    simp only [ParseState.start, ParseState.past]
    omega
  rw [stays] at read
  exact ⟨i + (k + 1), by omega, inside, ParseState.past_past .., read⟩

end Step

end Front

/-! ## Productions -/

namespace Grammar

open Transfer

variable {w : Transfer}

/-- The elements in braces end with the closing one. -/
theorem closes_body {f : α → α} {p q : Parse (Option α)} (h : w.Carries (Option.map f) p q) :
    w.Closes (List.map f) (body p) (body q) := by
  apply (carries_consumeMark _ _).closes
  intro _
  apply closes_loop (f := Option.map f) (by decide)
  · apply Carries.atEnd
    · exact (carries_reject (f := id) _).bind fun _ => h
    · exact h
  · intro as
    rw [List.filterMap_map, List.map_filterMap]
    rfl

theorem closes_optionStatement :
    w.Closes (·.relocate w.move) optionStatement optionStatement := by
  refine .within (carries_advance.closes fun t => carries_optionName.closes fun x => ?_)
  refine (carries_consumeMark _ _).closes fun _ => carries_optionValue.closes fun v => ?_
  exact closes_semicolon.yield fun _ => rfl

theorem closes_enumDecl : w.Closes (·.relocate w.move) enumDecl enumDecl := by
  refine .within (carries_advance.closes fun t => (carries_consumeName _).closes fun x => ?_)
  exact (closes_body carries_enumElement).yield fun es => rfl

/-- A message ends with the closing brace, whatever is nested in it. -/
theorem closes_messageDecl : w.Closes (·.relocate w.move) messageDecl messageDecl := by
  refine .within (carries_advance.closes fun t => (carries_consumeName _).closes fun x => ?_)
  apply (closes_body carries_messageElement).yield
  intro es
  rw [MessageDecl.relocate, MessageElements.relocate_eq]
  rfl

theorem closes_extensionDecl : w.Closes (·.relocate w.move) extensionDecl extensionDecl := by
  refine .within (carries_advance.closes fun t => carries_typeName.closes fun x => ?_)
  apply (closes_body ((carries_memberOf carries_messageElement).yield fun m => rfl)).yield
  intro ms
  rw [ExtensionDecl.relocate, Members.relocate_eq]
  rfl

theorem closes_serviceDecl : w.Closes (·.relocate w.move) serviceDecl serviceDecl := by
  refine .within
    ((carries_consumeWord _).closes fun t => (carries_consumeName _).closes fun x => ?_)
  exact (closes_body carries_serviceElement).yield fun es => rfl

theorem closes_syntaxDecl : w.Closes (·.relocate w.move) syntaxDecl syntaxDecl := by
  refine .within
    ((carries_consumeWord _).closes fun t => (carries_consumeMark _ _).closes fun _ => ?_)
  exact (carries_stringLiteral _).closes fun x => closes_semicolon.yield fun _ => rfl

theorem closes_importDecl : w.Closes (·.relocate w.move) importDecl importDecl := by
  refine .within
    ((carries_consumeWord _).closes fun t => carries_importModifier.closes fun m => ?_)
  exact (carries_stringLiteral _).closes fun x => closes_semicolon.yield fun _ => rfl

theorem closes_packageDecl : w.Closes (·.relocate w.move) packageDecl packageDecl := by
  refine .within
    ((carries_consumeWord _).closes fun t => carries_qualifiedIdentifier.closes fun x => ?_)
  exact closes_semicolon.yield fun _ => rfl

/-- Every statement of the top level ends in a mark. -/
theorem closes_schemaElement :
    w.Closes (Option.map (·.relocate w.move)) schemaElement schemaElement := by
  apply Closes.accept (a := none) (by decide) rfl rfl
  apply Closes.word
  · exact closes_importDecl.yield fun _ => rfl
  apply Closes.word
  · exact closes_packageDecl.yield fun _ => rfl
  apply Closes.keyword
  · exact closes_optionStatement.yield fun _ => rfl
  apply Closes.keyword
  · exact closes_messageDecl.yield fun _ => rfl
  apply Closes.keyword
  · exact closes_enumDecl.yield fun _ => rfl
  apply Closes.keyword
  · exact closes_extensionDecl.yield fun _ => rfl
  apply Closes.word
  · exact closes_serviceDecl.yield fun _ => rfl
  · exact closes_reject _

end Grammar

end ProtoSchema
