import ProtoSchema.Proofs.Expecting.Step

/-!
# Tokens that are expected

A token that is taken, and one that is asked for. What is asked for is described by an
alternative, and a token that the step does not take is not as it says.
-/
namespace ProtoSchema.Fork

open Parse Transfer

variable {α β : Type} {pre firm : Token → Prop}

variable {w : Fork} {n : ℕ} {s : ParseState} {p q : Parse α}

/-! ## Tokens -/

/-- The next token is taken, and the step goes on with it from behind. -/
theorem Sincere.advance_at {F G : Token → Parse α}
    (hpre : ∀ t, t.WellMade → pre t → t.kind ≠ .endOfInput)
    (h : ∀ (s : ParseState) t, n ≤ s.index → t.WellMade → pre t →
      (s.index < w.place → w.source[s.index]? = some t) →
      w.SincereAt ⊤ ⊥ (F t) (G t) (s.past 1)) :
    w.Sincere n pre firm (advance >>= F) (advance >>= G) := by
  have forward {s : ParseState} {p : Parse α} {t : Token} {rest : List Token}
      (ht : s.ahead = t :: rest)
      (hs : Ended s.ahead) (hk : t.kind ≠ .endOfInput) (hp : Forward ⊤ ⊥ p (s.past 1)) :
      ∃ l, (firm t → 0 < l) ∧ (p (s.past 1)).2 = s.past l ∧ Ended (s.past l).ahead := by
    have behind : Ended (s.past 1).ahead := by
      rw [ParseState.ahead_past_one ht]
      exact (ht ▸ hs).tail hk
    obtain ⟨u, rest', hu⟩ := List.exists_cons_of_ne_nil behind.ne_nil
    obtain ⟨l, -, hl, hend⟩ := hp u rest' hu behind trivial
    rw [ParseState.past_past] at hl hend
    exact ⟨1 + l, fun _ => by omega, hl, hend⟩
  intro s hn
  refine ⟨fun t rest ht hs hp => ?_, fun t rest ht hs hp => ?_, ?_⟩
  · have made := (ht ▸ hs).wellMade
    have next := h s t hn made hp fun _ => ParseState.getElem?_of_ahead ht
    rw [bind_of_ok (advance_eq ht (hpre t made hp))]
    exact forward ht hs (hpre t made hp) next.left
  · have made := (ht ▸ hs).wellMade
    have next :=
      h s t hn made hp fun lt => (w.agrees _ lt).symm.trans (ParseState.getElem?_of_ahead ht)
    rw [bind_of_ok (advance_eq ht (hpre t made hp))]
    exact forward ht hs (hpre t made hp) next.right
  · intro hle hs t u rest rest' ht hu hpt hpu hstop
    have made := (ht ▸ hs).wellMade
    have next := h s t hn made hpt fun _ => ParseState.getElem?_of_ahead ht
    rw [bind_of_ok (advance_eq ht (hpre t made hpt))] at hstop ⊢
    have behind : Ended ((s.on w.source).past 1).ahead := by
      rw [ParseState.ahead_past_one ht]
      exact (ht ▸ hs).tail (hpre t made hpt)
    have hle' : s.index + 1 ≤ w.place := (next.left.index_le behind).trans hstop
    rcases next_cases hle ht hu with ⟨-, rfl⟩ | ⟨hplace, -⟩
    · rw [bind_of_ok (advance_eq hu (hpre u made hpu))]
      obtain ⟨t', rest₁, ht₁⟩ := List.exists_cons_of_ne_nil behind.ne_nil
      obtain ⟨u', rest₂, hu₁⟩ :=
        List.exists_cons_of_ne_nil (w.ended_target (s := s.past 1) hle').ne_nil
      exact next.meets hle' behind t' u' rest₁ rest₂ ht₁ hu₁ trivial trivial hstop
    · omega

/-- A token that is taken unseen is not rejected, so the lists are compared behind it. -/
theorem Sincere.advance_bind {F G : Token → Parse α}
    (hpre : ∀ t, t.WellMade → pre t → t.kind ≠ .endOfInput)
    (h : ∀ t, t.WellMade → pre t → w.Sincere (n + 1) ⊤ ⊥ (F t) (G t)) :
    w.Sincere n pre firm (advance >>= F) (advance >>= G) :=
  .advance_at hpre fun s t hn made hp _ => h t made hp (s.past 1) (Nat.succ_le_succ hn)

theorem sincere_advance (hpre : ∀ t, t.WellMade → pre t → t.kind ≠ .endOfInput) :
    w.Sincere n pre firm advance advance := by
  have whole : w.Sincere n pre firm (advance >>= Pure.pure) (advance >>= Pure.pure) :=
    .advance_bind hpre fun t _ _ => .pure t t
  rwa [bind_pure] at whole

/-- A token of some kinds is taken or not. -/
theorem Sincere.accept_at {kinds : List TokenKind} {F G : Bool → Parse α}
    (hk : .endOfInput ∉ kinds)
    (ht : ∀ (s : ParseState) t, n ≤ s.index → t.WellMade → t.kind ∈ kinds →
      (s.index < w.place → w.source[s.index]? = some t) →
      w.SincereAt ⊤ ⊥ (F true) (G true) (s.past 1))
    (hf : w.Sincere n (fun t => pre t ∧ t.kind ∉ kinds) firm (F false) (G false)) :
    w.Sincere n pre firm (accept kinds >>= F) (accept kinds >>= G) := by
  refine .choose (chooses_accept hk F) (chooses_accept hk G) ?_
    (hf.restrict fun t _ h => ⟨h.1, of_decide_eq_false h.2⟩)
  refine .advance_at (fun t _ h he => ?_) fun s t hn made h hst => ?_
  · exact hk (he ▸ of_decide_eq_true h.2)
  · exact ht s t hn made (of_decide_eq_true h.2) hst

/-- A token of the kinds is taken; otherwise the second branch goes on with it. -/
theorem Sincere.accept {kinds : List TokenKind} {F G : Bool → Parse α}
    (hk : .endOfInput ∉ kinds) (ht : w.Sincere (n + 1) ⊤ ⊥ (F true) (G true))
    (hf : w.Sincere n (fun t => pre t ∧ t.kind ∉ kinds) firm (F false) (G false)) :
    w.Sincere n pre firm (Parse.accept kinds >>= F) (Parse.accept kinds >>= G) :=
  .accept_at hk (fun s _ hn _ _ _ => ht (s.past 1) (Nat.succ_le_succ hn)) hf

section Tests

variable {F G : Bool → Parse α}

/-- The kind of the next token chooses the branch. -/
theorem Sincere.check {kind : TokenKind}
    (ht : w.Sincere n (fun t => pre t ∧ t.kind = kind) ⊤ (F true) (G true))
    (hf : w.Sincere n (fun t => pre t ∧ t.kind ≠ kind) firm (F false) (G false)) :
    w.Sincere n pre firm (check kind >>= F) (Parse.check kind >>= G) :=
  .test (peeks_check kind) (fun _ _ => decide_eq_true_iff) ht hf

/-- The word that is next chooses the branch. -/
theorem Sincere.word {x : String}
    (ht : w.Sincere n (fun t => pre t ∧ t.IsWord x) ⊤ (F true) (G true))
    (hf : w.Sincere n (fun t => pre t ∧ ¬t.IsWord x) firm (F false) (G false)) :
    w.Sincere n pre firm (checkWord x >>= F) (checkWord x >>= G) :=
  .test (peeks_checkWord x) (fun t _ => by simp [Token.IsWord]) ht hf

/-- The soft keyword that is next chooses the branch. -/
theorem Sincere.keyword {x : String} (hx : x ∈ Token.softKeywords)
    (ht : w.Sincere n (fun t => pre t ∧ t.IsWord x) ⊤ (F true) (G true))
    (hf : w.Sincere n (fun t => pre t ∧ ¬t.IsWord x) firm (F false) (G false)) :
    w.Sincere n pre firm (checkKeyword x >>= F) (checkKeyword x >>= G) :=
  .test (peeks_checkKeyword x) (fun _ made => made.keyword_iff hx) ht hf

/-- A message literal where one starts, or something else. -/
theorem Sincere.atMessageLiteral
    (ht :
      w.Sincere n (fun t => pre t ∧ (t.kind = .leftBrace ∨ t.kind = .leftAngle)) ⊤ (F true)
      (G true))
    (hf : w.Sincere n (fun t => pre t ∧ ¬(t.kind = .leftBrace ∨ t.kind = .leftAngle))
      firm (F false)
      (G false)) :
    w.Sincere n pre firm (Grammar.atMessageLiteral >>= F) (Grammar.atMessageLiteral >>= G) :=
  .test peeks_atMessageLiteral (fun t _ => by simp) ht hf

end Tests

/-! ## Expected tokens -/

/-- A token of one kind is taken, and the step goes on behind it. -/
theorem SincereAt.consume_bind {kind : TokenKind} {wanted : Expectation}
    {F G : Token → Parse α} (hk : kind ≠ .endOfInput)
    (hw : pre w.token → s.index = w.place → wanted.Admits w.token →
      w.token.kind = kind ∨ w.Overstated wanted)
    (h : ∀ t, t.WellMade → t.kind = kind → w.Sincere (s.index + 1) ⊤ ⊥ (F t) (G t)) :
    w.SincereAt pre (·.kind = kind) (consume kind wanted >>= F)
      (consume kind wanted >>= G) s := by
  rw [consume, bind_assoc, bind_assoc]
  refine .choose ((peeks_check kind).chooses _) ((peeks_check kind).chooses _) ?_ ?_
  · have taken : w.Sincere s.index (fun t => pre t ∧ t.kind = kind) ⊤ (advance >>= F)
        (advance >>= G) :=
      .advance_bind (fun t _ ht => ht.2 ▸ hk) fun t made ht => h t made ht.2
    exact (taken s le_rfl).mono (fun _ _ ht => ⟨ht.1, of_decide_eq_true ht.2⟩) fun _ _ _ => id
  · show w.SincereAt _ _ (expect [wanted] >>= F) (expect [wanted] >>= G) s
    rw [expect, reject_bind, reject_bind]
    have rejected : w.SincereAt (fun t => pre t ∧ decide (t.kind = kind) = false) ⊥
        (reject (.expected [wanted]) : Parse α) (reject (.expected [wanted])) s := by
      refine sincereAt_reject fun hpre hplace xs hxs x hx fits => ?_
      obtain rfl := Complaint.expected.inj hxs
      obtain rfl := List.mem_singleton.mp hx
      exact (hw hpre.1 hplace fits).resolve_left (of_decide_eq_false hpre.2)
    exact rejected.mono (fun _ _ => id) fun _ _ ht hfirm => of_decide_eq_false ht.2 hfirm

/-- What is asked for in words that admit tokens of one kind only, and that kind is taken. -/
theorem Sincere.consume_bind {kind : TokenKind} {wanted : Expectation} {F G : Token → Parse α}
    (hk : kind ≠ .endOfInput) (hw : ∀ t, wanted.Admits t → t.kind = kind)
    (h : ∀ t, t.WellMade → t.kind = kind → w.Sincere (n + 1) ⊤ ⊥ (F t) (G t)) :
    w.Sincere n pre (·.kind = kind) (consume kind wanted >>= F) (consume kind wanted >>= G) :=
  fun _ hn => .consume_bind hk (fun _ _ fits => .inl (hw w.token fits)) fun t made ht =>
    (h t made ht).further (Nat.succ_le_succ hn)

theorem sincere_consume {kind : TokenKind} {wanted : Expectation} (hk : kind ≠ .endOfInput)
    (hw : ∀ t, wanted.Admits t → t.kind = kind) :
    w.Sincere n pre (·.kind = kind) (consume kind wanted) (consume kind wanted) := by
  have whole : w.Sincere n pre (·.kind = kind) (consume kind wanted >>= Pure.pure)
      (consume kind wanted >>= Pure.pure) := .consume_bind hk hw fun t _ _ => .pure t t
  rwa [bind_pure] at whole

/-- A mark is named by its spelling, which admits what is read as that mark. -/
theorem sincere_spelled {kind : TokenKind} {mark : String} {x : Text}
    (hk : kind ≠ .endOfInput) (h : (Lexeme.read mark.toList).outcome = .ok (kind, x)) :
    w.Sincere n pre (·.kind = kind) (consume kind (.spelled mark))
      (consume kind (.spelled mark)) :=
  sincere_consume hk fun _ ht => (ht.spelling h).1

theorem sincere_mark {kind : TokenKind} {mark : String} {x : Text} (hk : kind ≠ .endOfInput)
    (h : (Lexeme.read mark.toList).outcome = .ok (kind, x)) :
    w.Sincere n pre (·.kind = kind) (consumeMark kind mark) (consumeMark kind mark) :=
  .yield (sincere_spelled hk h)

/-- A word is named by its spelling. -/
theorem sincere_consumeWord {word : String}
    (h : (Lexeme.read word.toList).outcome = .ok (.identifier, Text.ofString word)) :
    w.Sincere n pre (·.IsWord word) (consumeWord word) (consumeWord word) := by
  refine .word (sincere_advance fun t _ ht => ?_) ?_
  · rw [ht.2.1]
    decide
  · refine sincere_expect fun t ht => ⟨ht.2, fun x hx fits => ht.2 ?_⟩
    rw [List.mem_singleton.mp hx] at fits
    exact fits.spelling h

/-- A name admits identifiers that are no soft keywords. -/
theorem sincere_consumeName {purpose : String} : w.Sincere n pre
    (fun t => t.kind = .identifier ∧ t.soft = false) (consumeName (.aName purpose))
    (consumeName (.aName purpose)) := by
  refine .split (fun t => t.kind = .identifier && !t.soft) ?_ ?_
  · refine .current fun t _ ht => ?_
    obtain ⟨hk, hs⟩ : t.kind = .identifier ∧ t.soft = false := by simpa using ht.2
    simp only [hk, hs, ne_eq, not_true_eq_false, decide_false, Bool.or_self,
      Bool.false_eq_true,
      if_false]
    refine Sincere.yield (sincere_advance fun u _ hu => ?_)
    rw [hu, hk]
    decide
  · refine .start fun t u ht hu => ?_
    have other {t : Token} (ht : (decide (t.kind = .identifier) && !t.soft) = false) :
        (decide (t.kind ≠ .identifier) || t.soft) = true := by
      by_cases hk : t.kind = .identifier <;> simp_all
    rw [if_pos (other ht.2), if_pos (other hu.2)]
    refine sincere_expect fun t ht => ?_
    have no_name : ¬(t.kind = .identifier ∧ t.soft = false) := by simpa using ht.2
    refine ⟨no_name, fun x hx fits => no_name ?_⟩
    rwa [List.mem_singleton.mp hx] at fits

/-- A failure about no token says nothing of what is expected. -/
theorem sincere_fail {e : ParseFailure} (h : ∀ u, e ≠ .unexpected u) :
    w.Sincere n pre ⊥ (fail e : Parse α) (fail e) := fun _ _ => {
  left := .stay rfl
  right := .stay rfl
  meets := fun _ _ _ _ _ _ _ _ _ _ _ => .unfit rfl fun _ u _ hu => absurd hu (h u) }

theorem sincere_ofNumeral {r : Except NumeralError α} {a : α} (h : r = .ok a) :
    w.Sincere n pre ⊥ (ofNumeral r) (ofNumeral r) := by
  rw [h]
  exact .pure a a

/-- At an end token something else is expected. -/
theorem Sincere.unlessEnd {F G : Bool → Parse α} {xs : List Expectation}
    (h : ∀ t, pre t → ∀ x ∈ xs, ¬x.Admits t) (hF : F true = expect xs)
    (hG : G true = expect xs)
    (hf : w.Sincere n (fun t => pre t ∧ t.kind ≠ .endOfInput) firm (F false) (G false)) :
    w.Sincere n pre ⊥ (atEnd >>= F) (atEnd >>= G) := by
  intro s hn
  have left := peeks_atEnd.chooses F
  have right := peeks_atEnd.chooses G
  rw [hF] at left
  rw [hG] at right
  have rejects {s : ParseState} {g : Token → Bool} :
      Forward (fun t => pre t ∧ g t = true) ⊥ (expect xs : Parse α) s := by
    intro t rest ht hs _
    rw [expect, reject_eq ht]
    exact ⟨0, False.elim, rfl, hs⟩
  have onward :
      w.SincereAt (fun t => pre t ∧ decide (t.kind = .endOfInput) = false) ⊥ (F false)
      (G false) s :=
    (hf s hn).mono (fun _ _ ht => ⟨ht.1, of_decide_eq_false ht.2⟩) fun _ _ _ => False.elim
  refine ⟨left.forward rejects onward.left, right.forward rejects onward.right, ?_⟩
  intro hle hs t u rest rest' ht hu hpt hpu hstop
  by_cases hk : t.kind = .endOfInput
  · rw [left _ t rest ht, if_pos (decide_eq_true hk), expect, reject_eq ht]
    refine .unfit rfl fun hplace => unfit_unexpected fun ys hys x hx fits => ?_
    obtain rfl := Complaint.expected.inj hys
    rcases next_cases hle ht hu with ⟨lt, -⟩ | ⟨-, rfl⟩
    · exact absurd hplace lt.ne
    · exact absurd fits (h _ hpu x hx)
  · have hk' : u.kind ≠ .endOfInput := by
      rcases next_cases hle ht hu with ⟨-, rfl⟩ | ⟨-, rfl⟩
      · exact hk
      · exact w.usable
    rw [left _ t rest ht, if_neg (by simpa using hk)] at hstop ⊢
    rw [right _ u rest' hu, if_neg (by simpa using hk')]
    exact onward.meets hle hs t u rest rest' ht hu ⟨hpt, decide_eq_false hk⟩
      ⟨hpu, decide_eq_false hk'⟩ hstop

end ProtoSchema.Fork
