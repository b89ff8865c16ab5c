import ProtoSchema.Proofs.Mirroring.Token
import ProtoSchema.Proofs.Parsing.Reads

/-!
# Steps on mirrored tokens

`Mirrors pre n c f p q` says that `q` does on the mirrored tokens what `p` does on the tokens,
where the next token satisfies `pre` and at most `n` are left. Both yield, `q` what `f` makes
of the other value, or both reject the same token; they stop at the same place. A step that
yields has taken at least `c` tokens, so no loop of such steps goes round for ever.
-/
namespace ProtoSchema.Parse

variable {α β γ : Type} {n c d : ℕ} {f : α → α} {g : β → β} {pre : Token → Prop}

/-- How two runs end that started at a state and at its mirror. -/
def Alike (c : ℕ) (f : α → α) (s : ParseState)
    (r r' : Except ParseFailure α × ParseState) : Prop :=
  ∃ k, Sealed (s.past k).ahead ∧
    ((∃ a, r = (.ok a, s.past k) ∧ r' = (.ok (f a), s.mirror.past k) ∧ c ≤ k) ∨
      ∃ e e', r = (.error (.unexpected e), s.past k) ∧
        r' = (.error (.unexpected e'), s.mirror.past k) ∧ e.actual ∈ (s.past k).ahead.head? ∧
        e.Mirrors e')

/-- Fewer tokens may be promised to be taken. -/
theorem Alike.mono {s : ParseState} {r r' : Except ParseFailure α × ParseState}
    (h : Alike c f s r r') (hd : d ≤ c) : Alike d f s r r' := by
  obtain ⟨k, hk, ⟨a, ha, ha', hc⟩ | herror⟩ := h
  · exact ⟨k, hk, .inl ⟨a, ha, ha', by omega⟩⟩
  · exact ⟨k, hk, .inr herror⟩

/-- Runs that go on behind some tokens. -/
theorem Alike.behind {s : ParseState} {k : ℕ} {r r' : Except ParseFailure α × ParseState}
    (h : Alike c f (s.past k) r r') : Alike (k + c) f s r r' := by
  obtain ⟨m, hm, ⟨a, ha, ha', hc⟩ | ⟨e, e', he, he', hactual, hee'⟩⟩ := h
  · rw [ParseState.past_past] at hm ha
    refine ⟨k + m, hm, .inl ⟨a, ha, ?_, by omega⟩⟩
    rw [ha', ← ParseState.past_past]
    rfl
  · rw [ParseState.past_past] at hm he hactual
    refine ⟨k + m, hm, .inr ⟨e, e', he, ?_, hactual, hee'⟩⟩
    rw [he', ← ParseState.past_past]
    rfl

/-- The second step does on the mirrored tokens what the first does on the tokens. -/
def Mirrors (pre : Token → Prop) (n c : ℕ) (f : α → α) (p q : Parse α) : Prop :=
  ∀ s : ParseState, s.remaining ≤ n → Sealed s.ahead → (∀ t ∈ s.ahead.head?, pre t) →
    Alike c f s (p s) (q s.mirror)

/-- A step may be used where more is known of the next token and fewer tokens are left. -/
theorem Mirrors.mono {pre' : Token → Prop} {p q : Parse α} {m : ℕ} (h : Mirrors pre n c f p q)
    (hpre : ∀ t, pre' t → pre t) (hm : m ≤ n) (hd : d ≤ c) : Mirrors pre' m d f p q :=
  fun s hle hs hpre' => (h s (hle.trans hm) hs fun t ht => hpre t (hpre' t ht)).mono hd

theorem Mirrors.forget {p q : Parse α} (h : Mirrors pre n c f p q) : Mirrors pre n 0 f p q :=
  h.mono (fun _ => id) le_rfl (Nat.zero_le c)

/-- There is always a next token. -/
theorem Mirrors.of_not {p q : Parse α} (h : ∀ t, ¬pre t) : Mirrors pre n c f p q := by
  intro s _ hs hpre
  obtain ⟨t, rest, ht⟩ := hs.exists_cons
  exact absurd (hpre t (by rw [ht]; rfl)) (h t)

/-! ## Sequence -/

theorem Mirrors.pure {a b : α} (h : f a = b) : Mirrors pre n 0 f (pure a) (pure b) :=
  fun _ _ hs _ => ⟨0, hs, .inl ⟨a, rfl, h ▸ rfl, le_rfl⟩⟩

/-- What comes after a step knows nothing of the next token. -/
theorem Mirrors.bind {p q : Parse α} {F G : α → Parse β} (h : Mirrors pre n c f p q)
    (hF : ∀ a, Mirrors (fun _ => True) (n - c) 0 g (F a) (G (f a))) :
    Mirrors pre n c g (p >>= F) (q >>= G) := by
  intro s hle hs hpre
  obtain ⟨k, hk, ⟨a, ha, ha', hc⟩ | ⟨e, e', he, he', hactual, hee'⟩⟩ := h s hle hs hpre
  · have hrest : (s.past k).remaining ≤ n - c := by
      simp only [ParseState.remaining, ParseState.past] at hle ⊢
      omega
    rw [bind_of_ok ha, bind_of_ok ha']
    exact (hF a (s.past k) hrest hk fun _ _ => trivial).behind.mono (by omega)
  · exact ⟨k, hk, .inr ⟨e, e', bind_of_error he, bind_of_error he', hactual, hee'⟩⟩

/-- The last of several steps. -/
theorem Mirrors.yield {p q : Parse α} {F G : α → β} (h : Mirrors pre n c f p q)
    (hF : ∀ a, g (F a) = G (f a)) :
    Mirrors pre n c g (p >>= fun a => Pure.pure (F a)) (q >>= fun a => Pure.pure (G a)) :=
  h.bind fun a => .pure (hF a)

/-- The rules that are open are not mirrored. -/
theorem Mirrors.within {p q : Parse α} {rule : Rule} (h : Mirrors pre n c f p q) :
    Mirrors pre n c f (within rule p) (within rule q) := by
  intro s hle hs hpre
  obtain ⟨k, hk, ⟨a, ha, ha', hc⟩ | ⟨e, e', he, he', hactual, hee'⟩⟩ :=
    h { s with rules := rule :: s.rules } hle hs hpre
  · exact ⟨k, hk, .inl ⟨a, within_eq ha, within_eq (s := s.mirror) ha', hc⟩⟩
  · exact ⟨k, hk, .inr ⟨e, e', within_eq he, within_eq (s := s.mirror) he', hactual, hee'⟩⟩

theorem mirrors_ofNumeral {r : Except NumeralError α} (h : ∃ a, r = .ok a) :
    Mirrors pre n 0 id (ofNumeral r) (ofNumeral r) := by
  obtain ⟨a, rfl⟩ := h
  exact .pure rfl

/-! ## Choice -/

/-- The next token is looked at. -/
theorem Mirrors.peek {q q' : Parse γ} {look look' : Token → γ} {F G : γ → Parse α}
    (hq : Peeks q look) (hq' : Peeks q' look') (hlook : ∀ t : Token, look' t.mirror = look t)
    (h : ∀ b, Mirrors (fun t => pre t ∧ look t = b) n c f (F b) (G b)) :
    Mirrors pre n c f (q >>= F) (q' >>= G) := by
  intro s hle hs hpre
  obtain ⟨t, rest, ht⟩ := hs.exists_cons
  rw [bind_of_ok (hq s t rest ht),
    bind_of_ok (hq' s.mirror _ _ (ParseState.ahead_mirror_cons ht)), hlook]
  refine h (look t) s hle hs fun u hu => ⟨hpre u hu, ?_⟩
  rw [ht] at hu
  obtain rfl := Option.some.inj hu
  rfl

/-- The next token is looked at as a whole. -/
theorem Mirrors.current {F G : Token → Parse α}
    (h : ∀ t : Token, t.Shaped → pre t → Mirrors (· = t) n c f (F t) (G t.mirror)) :
    Mirrors pre n c f (current >>= F) (current >>= G) := by
  intro s hle hs hpre
  obtain ⟨t, rest, ht⟩ := hs.exists_cons
  rw [bind_of_ok (peeks_current s t rest ht),
    bind_of_ok (peeks_current s.mirror _ _ (ParseState.ahead_mirror_cons ht))]
  refine h t (hs.shaped t (by simp [ht])) (hpre t (by rw [ht]; rfl)) s hle hs fun u hu => ?_
  rw [ht] at hu
  exact (Option.some.inj hu).symm

/-- The next token is looked at as a whole, and there are the brackets to be mirrored and the
tokens that stay the same. -/
theorem Mirrors.current_cases {F : Token → Parse α}
    (same : ∀ t : Token, t.Shaped → Mirrors (· = t) n c f (F t) (F t))
    (bracket : ∀ t : Token, t.kind.isMirrored = true →
      Mirrors (· = t) n c f (F t) (F t.mirror)) :
    Mirrors pre n c f (Parse.current >>= F) (Parse.current >>= F) := by
  refine .current fun t shaped _ => ?_
  by_cases h : t.kind.mirror = t.kind
  · rw [Token.mirror_eq_self h]
    exact same t shaped
  · exact bracket t (decide_eq_true h)

/-- One side is looked for, and on the mirrored tokens its mirror. -/
theorem Mirrors.check {kind : TokenKind} {F G : Bool → Parse α}
    (ht : Mirrors (fun t => pre t ∧ t.kind = kind) n c f (F true) (G true))
    (hf : Mirrors (fun t => pre t ∧ t.kind ≠ kind) n c f (F false) (G false)) :
    Mirrors pre n c f (check kind >>= F) (check kind.mirror >>= G) := by
  refine .peek (peeks_check kind) (peeks_check kind.mirror) (fun t => ?_) fun b => ?_
  · rw [decide_eq_decide]
    exact Token.mirror_kind_eq_iff
  · cases b with
    | true => exact ht.mono (fun t h => ⟨h.1, of_decide_eq_true h.2⟩) le_rfl le_rfl
    | false => exact hf.mono (fun t h => ⟨h.1, of_decide_eq_false h.2⟩) le_rfl le_rfl

/-- A message literal starts where its mirror does. -/
theorem Mirrors.atMessageLiteral {F G : Bool → Parse α}
    (ht : Mirrors pre n c f (F true) (G true)) (hf : Mirrors pre n c f (F false) (G false)) :
    Mirrors pre n c f (Grammar.atMessageLiteral >>= F) (Grammar.atMessageLiteral >>= G) := by
  refine .peek peeks_atMessageLiteral peeks_atMessageLiteral (fun t => ?_) fun b => ?_
  · rw [Token.mirror_kind]
    cases t.kind <;> rfl
  · cases b with
    | true => exact ht.mono (fun t h => h.1) le_rfl le_rfl
    | false => exact hf.mono (fun t h => h.1) le_rfl le_rfl

/-- Two complaints that list the same alternatives, mirrored and in any order. -/
theorem mirrors_expect {xs ys : List Expectation} (h : ys.Perm (xs.map Expectation.mirror)) :
    Mirrors pre n c f (expect xs) (expect ys) := by
  intro s _ hs _
  obtain ⟨t, rest, ht⟩ := hs.exists_cons
  refine ⟨0, hs,
    .inr ⟨_, _, reject_eq ht _, reject_eq (ParseState.ahead_mirror_cons ht) _, ?_,
    rfl, rfl, xs, ys, rfl, rfl, h⟩⟩
  rw [show s.past 0 = s from rfl, ht]
  rfl

/-! ## Tokens -/

/-- A token that is not the end is taken. -/
theorem mirrors_advance_some {f : Token → Token}
    (hpre : ∀ t, pre t → t.kind ≠ .endOfInput ∧ f t = t.mirror) :
    Mirrors pre n 1 f advance advance := by
  intro s _ hs hs'
  obtain ⟨t, rest, ht⟩ := hs.exists_cons
  obtain ⟨hk, hf⟩ := hpre t (hs' t (by rw [ht]; rfl))
  have hk' : t.mirror.kind ≠ .endOfInput := fun h => hk (Token.mirror_kind_eq_iff.mp h)
  refine ⟨1, ?_, .inl ⟨t, advance_eq ht hk, ?_, le_rfl⟩⟩
  · rw [ParseState.ahead_past_one ht]
    exact (ht ▸ hs).tail hk
  · rw [hf]
    exact advance_eq (ParseState.ahead_mirror_cons ht) hk'

theorem mirrors_advance : Mirrors pre n 0 Token.mirror advance advance := by
  intro s hle hs hpre
  obtain ⟨t, rest, ht⟩ := hs.exists_cons
  by_cases hk : t.kind = .endOfInput
  · have hk' : t.mirror.kind = .endOfInput := Token.mirror_kind_eq_iff.mpr hk
    exact ⟨0, hs,
      .inl ⟨t, advance_end ht hk, advance_end (ParseState.ahead_mirror_cons ht) hk', le_rfl⟩⟩
  · have some : Mirrors (· = t) n 1 Token.mirror advance advance :=
      mirrors_advance_some fun _ h => ⟨h ▸ hk, rfl⟩
    refine some.mono (fun _ => id) le_rfl (Nat.zero_le 1) s hle hs fun u hu => ?_
    rw [ht] at hu
    exact (Option.some.inj hu).symm

/-- A token of a kind is asked for, and on the other side one of the mirrored kind. -/
theorem mirrors_consume {kind : TokenKind} {wanted : Expectation} {f : Token → Token}
    (hk : kind.isAskedFor = true) (hf : ∀ t : Token, t.kind = kind → f t = t.mirror) :
    Mirrors pre n 1 f (consume kind wanted) (consume kind.mirror wanted.mirror) := by
  have he := (TokenKind.ne_of_isAskedFor hk).1
  refine .check (mirrors_advance_some fun t ht => ⟨?_, hf t ht.2⟩)
    (mirrors_expect (List.Perm.refl _))
  rw [ht.2]
  exact he

/-- A token that is no bracket to be mirrored is the same on both sides. -/
theorem mirrors_consume_same {kind : TokenKind} {wanted : Expectation}
    (hk : kind.isAskedFor = true) (hm : kind.mirror = kind) (hw : wanted.mirror = wanted) :
    Mirrors pre n 1 id (consume kind wanted) (consume kind wanted) := by
  have taken : Mirrors pre n 1 id (consume kind wanted) (consume kind.mirror wanted.mirror) :=
    mirrors_consume hk fun t ht => (Token.mirror_eq_self (t := t) (by rw [ht, hm])).symm
  rwa [hm, hw] at taken

/-- A mark that is its own mirror image is asked for on both sides. -/
theorem mirrors_consumeMark {kind : TokenKind} {mark : String} (hk : kind.isAskedFor = true)
    (hm : kind.mirror = kind) (hw : (Expectation.spelled mark).mirror = .spelled mark) :
    Mirrors pre n 1 id (consumeMark kind mark) (consumeMark kind mark) :=
  (mirrors_consume_same hk hm hw).yield fun _ => rfl

/-- A token is taken on both sides or on neither. -/
theorem accept_mirror {kinds : List TokenKind} (hk : kinds.all TokenKind.isAskedFor = true)
    {s : ParseState} (hs : Sealed s.ahead) :
    (accept kinds s = (.ok true, s.past 1) ∧
      accept (kinds.map TokenKind.mirror) s.mirror = (.ok true, s.mirror.past 1) ∧
      Sealed (s.past 1).ahead ∧ (s.past 1).remaining < s.remaining) ∨
    accept kinds s = (.ok false, s) ∧
      accept (kinds.map TokenKind.mirror) s.mirror = (.ok false, s.mirror) := by
  obtain ⟨t, rest, ht⟩ := hs.exists_cons
  have he := TokenKind.end_notMem hk
  have he' : .endOfInput ∉ kinds.map TokenKind.mirror :=
    (List.mem_map_of_injective TokenKind.mirror_injective).not.mpr he
  have same : t.mirror.kind ∈ kinds.map TokenKind.mirror ↔ t.kind ∈ kinds := by
    rw [Token.mirror_kind]
    exact List.mem_map_of_injective TokenKind.mirror_injective
  rw [accept_eq ht he, accept_eq (ParseState.ahead_mirror_cons ht) he']
  by_cases hmem : t.kind ∈ kinds
  · have hend : t.kind ≠ .endOfInput := fun heq => he (heq ▸ hmem)
    have hless := ParseState.remaining_past_one ht
    refine .inl ⟨if_pos hmem, if_pos (same.mpr hmem), ?_, by omega⟩
    rw [ParseState.ahead_past_one ht]
    exact (ht ▸ hs).tail hend
  · exact .inr ⟨if_neg hmem, if_neg fun h => hmem (same.mp h)⟩

/-- A token of some kinds is taken or not. -/
theorem Mirrors.accept {kinds kinds' : List TokenKind} {F G : Bool → Parse α}
    (hk : kinds.all TokenKind.isAskedFor = true)
    (hkinds : kinds' = kinds.map TokenKind.mirror)
    (ht : Mirrors (fun _ => True) (n - 1) (c - 1) f (F true) (G true))
    (hf : Mirrors pre n c f (F false) (G false)) :
    Mirrors pre n c f (accept kinds >>= F) (Parse.accept kinds' >>= G) := by
  subst hkinds
  intro s hle hs hpre
  rcases accept_mirror hk hs with ⟨here, there, hrest, hless⟩ | ⟨here, there⟩
  · rw [bind_of_ok here, bind_of_ok there]
    exact (ht (s.past 1) (by omega) hrest fun _ _ => trivial).behind.mono (by omega)
  · rw [bind_of_ok here, bind_of_ok there]
    exact hf s hle hs hpre

/-! ## Repetition -/

/-- A loop whose rounds mirror each other. In a round both loops stop, or both go on behind
the test and read an element, and something is taken. -/
theorem Mirrors.rounds {more more' : Parse Bool} {p q : Parse α}
    (h : ∀ s : ParseState, s.remaining ≤ n → Sealed s.ahead →
      (more s = (.ok false, s) ∧ more' s.mirror = (.ok false, s.mirror)) ∨
        ∃ b, more s = (.ok true, s.past b) ∧ more' s.mirror = (.ok true, s.mirror.past b) ∧
          Alike 1 f s (p (s.past b)) (q (s.mirror.past b))) :
    Mirrors pre n 0 (List.map f) (whileMore more p) (whileMore more' q) := by
  intro s hle hs hpre
  clear hpre
  induction hr : s.remaining using Nat.strongRecOn generalizing s with | ind m ih
  rw [whileMore, whileMore]
  rcases h s hle hs with ⟨hm, hm'⟩ | ⟨b, hm, hm', halike⟩
  · rw [hm, hm']
    exact ⟨0, hs, .inl ⟨[], rfl, rfl, le_rfl⟩⟩
  · rw [hm, hm']
    obtain ⟨k, hk, ⟨a, ha, ha', hc⟩ | ⟨e, e', he, he', hactual, hee'⟩⟩ := halike
    · have hless : (s.past k).remaining < s.remaining := by
        obtain ⟨t, rest, ht⟩ := hs.exists_cons
        have hpos : 0 < s.remaining := ParseState.remaining_pos (by simp [ht])
        simp only [ParseState.remaining, ParseState.past] at hpos ⊢
        omega
      have hless' : (s.mirror.past k).remaining < s.mirror.remaining := by
        rw [show s.mirror.past k = (s.past k).mirror from rfl, ParseState.remaining_mirror,
          ParseState.remaining_mirror]
        exact hless
      simp only [ha, ha', dif_pos hless, dif_pos hless']
      obtain ⟨l, hl, ⟨as, has, has', -⟩ | ⟨e, e', he, he', hactual, hee'⟩⟩ :=
        (ih _ (hr ▸ hless) (s.past k) (hless.le.trans hle) hk rfl).behind
      · exact ⟨l, hl, .inl ⟨a :: as, by rw [has], by
          rw [show s.mirror.past k = (s.past k).mirror from rfl, has']; rfl, Nat.zero_le _⟩⟩
      · exact ⟨l, hl, .inr ⟨e, e', by rw [he], by
          rw [show s.mirror.past k = (s.past k).mirror from rfl, he'], hactual, hee'⟩⟩
    · simp only [he, he']
      exact ⟨k, hk, .inr ⟨e, e', rfl, rfl, hactual, hee'⟩⟩

/-- Elements as long as the next token is so. -/
theorem Mirrors.whileMore {more more' : Parse Bool} {look look' : Token → Bool}
    {p q : Parse α} (hmore : Peeks more look) (hmore' : Peeks more' look')
    (hlook : ∀ t : Token, look' t.mirror = look t) (h : Mirrors (look · = true) n 1 f p q) :
    Mirrors pre n 0 (List.map f) (whileMore more p) (Parse.whileMore more' q) := by
  refine .rounds fun s hle hs => ?_
  obtain ⟨t, rest, ht⟩ := hs.exists_cons
  rw [hmore s t rest ht, hmore' s.mirror _ _ (ParseState.ahead_mirror_cons ht), hlook]
  cases hl : look t with
  | false => exact .inl ⟨rfl, rfl⟩
  | true =>
    refine .inr ⟨0, rfl, rfl, h s hle hs fun u hu => ?_⟩
    rw [ht] at hu
    obtain rfl := Option.some.inj hu
    exact hl

/-- Elements with separators between them. -/
theorem Mirrors.separatedBy {separator : TokenKind} {p q : Parse α}
    (hk : separator.isAskedFor = true) (h : Mirrors pre n c f p q)
    (h' : Mirrors (fun _ => True) (n - 1) 0 f p q) :
    Mirrors pre n c (List.map f) (separatedBy separator p)
      (separatedBy separator.mirror q) := by
  have more : Mirrors (fun _ => True) (n - c) 0 (List.map f)
      (Parse.whileMore (Parse.accept [separator]) p)
      (Parse.whileMore (Parse.accept [separator.mirror]) q) := by
    refine .rounds fun s hle hs => ?_
    have single : [separator].all TokenKind.isAskedFor = true := by simpa using hk
    rcases accept_mirror single hs with ⟨here, there, hrest, hless⟩ | ⟨here, there⟩
    · have both := (h' (s.past 1) (by omega) hrest fun _ _ => trivial).behind
      exact .inr ⟨1, here, there, both⟩
    · exact .inl ⟨here, there⟩
  exact h.bind fun a => more.yield fun as => rfl

/-- Steps that use themselves where fewer tokens are left. -/
theorem Mirrors.recursive {step step' : Parse α → Parse α}
    (h : ∀ m p q, Mirrors (fun _ => True) m c f p q →
      Mirrors (fun _ => True) (m + 1) c f (step p) (step' q)) :
    Mirrors pre n c f (recursive step) (Parse.recursive step') := by
  intro s hle hs hpre
  clear hpre hle
  induction hr : s.remaining using Nat.strongRecOn generalizing s with | ind m ih
  obtain ⟨t, rest, ht⟩ := hs.exists_cons
  have hpos : 0 < s.remaining := ParseState.remaining_pos (by simp [ht])
  rw [recursive_eq, recursive_eq]
  refine h (m - 1) _ _ (fun u hlt hu _ => ?_) s (by omega) hs fun _ _ => trivial
  rw [ParseState.remaining_mirror, ParseState.remaining_mirror, if_pos (by omega),
    if_pos (by omega)]
  exact ih u.remaining (by omega) u hu rfl

end ProtoSchema.Parse
