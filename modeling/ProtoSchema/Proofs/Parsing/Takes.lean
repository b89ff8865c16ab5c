import ProtoSchema.Proofs.Parsing.Step
import ProtoSchema.Proofs.Rendering.Word
import Mathlib.Data.List.Forall2

/-!
# What a parsing step must do

`Takes n p ts rest Q` says that the step `p` takes the tokens `ts` where `rest` stands behind
them, no more and no fewer, and yields something that satisfies `Q`. A step that stops by what
it sees next needs to know of `rest`; `Follow` says what the first token there is like.
-/
namespace ProtoSchema

variable {α β γ : Type}

/-- The first token, if any, is so. -/
def Follow (P : Token → Prop) (ts : List Token) : Prop := ∀ t ∈ ts.head?, P t

@[simp] theorem follow_cons {P : Token → Prop} {t : Token} {ts : List Token} :
    Follow P (t :: ts) ↔ P t := by
  simp [Follow]

/-- A condition on the first token may be weakened. -/
theorem Follow.mono {P P' : Token → Prop} {ts : List Token} (h : Follow P ts)
    (hP : ∀ t, P t → P' t) : Follow P' ts := fun t ht => hP t (h t ht)

/-- There is a first token, and it is so. -/
def Starts (P : Token → Prop) (ts : List Token) : Prop := ∃ t us, ts = t :: us ∧ P t

@[simp] theorem starts_cons {P : Token → Prop} {t : Token} {ts : List Token} :
    Starts P (t :: ts) ↔ P t := by
  simp [Starts]

theorem Starts.mono {P P' : Token → Prop} {ts : List Token} (h : Starts P ts)
    (hP : ∀ t, P t → P' t) : Starts P' ts := by
  obtain ⟨t, us, rfl, ht⟩ := h
  exact starts_cons.mpr (hP t ht)

/-- What starts so starts so with more behind it. -/
theorem Starts.follow {P : Token → Prop} {ts : List Token} (h : Starts P ts)
    (rest : List Token) : Follow P (ts ++ rest) := by
  obtain ⟨t, us, rfl, ht⟩ := h
  simpa using ht

theorem Starts.append {P : Token → Prop} {ts : List Token} (h : Starts P ts)
    (rest : List Token) : Starts P (ts ++ rest) := by
  obtain ⟨t, us, rfl, ht⟩ := h
  simpa using ht

/-- The first token is another word than the one that is looked for. -/
theorem Starts.notWord {v w : String} {ts rest : List Token} (h : Starts (Token.IsWord v) ts)
    (hvw : decide (Text.ofString v = Text.ofString w) = false) :
    Follow (¬Token.IsWord w ·) (ts ++ rest) :=
  (h.follow rest).mono fun _ ht hw => of_decide_eq_false hvw (ht.2.symm.trans hw.2)

/-- What a word of a product starts with. -/
theorem follow_prod {P : Token → Prop} {F : β → Language Token} {bs : List β}
    {ts rest : List Token} (hF : ∀ b ∈ bs, ∀ us ∈ F b, Starts P us) (h : ts ∈ (bs.map F).prod)
    (hrest : Follow P rest) : Follow P (ts ++ rest) := by
  cases bs with
  | nil => rwa [show ts = [] from h]
  | cons b bs =>
    obtain ⟨us, hu, vs, hv, rfl⟩ := h
    rw [List.append_assoc]
    exact (hF b (by simp) us hu).follow _

namespace Parse

variable {n : ℕ} {us vs ts rest : List Token}

/-- The step takes the tokens and no more where at most `n` tokens are left. -/
def Takes (n : ℕ) (p : Parse α) (ts rest : List Token) (Q : α → Prop) : Prop :=
  ∀ s : ParseState, s.remaining ≤ n → Ended s.ahead → s.ahead = ts ++ rest → rest ≠ [] →
    ∃ a, p s = (.ok a, s.past ts.length) ∧ Q a

/-! ## Sequence -/

/-- To yield something takes no token. -/
theorem Takes.pure {Q : α → Prop} {a : α} (h : Q a) : Takes n (pure a) [] rest Q :=
  fun _ _ _ _ _ => ⟨a, rfl, h⟩

/-- Of two steps the first takes the tokens in front, with the rest of them ahead, and the
second those behind. -/
theorem Takes.bind {p : Parse α} {f : α → Parse β} {Q : α → Prop} {R : β → Prop}
    (hp : Takes n p us (vs ++ rest) Q)
    (hf : ∀ a, Q a → Takes (n - us.length) (f a) vs rest R) :
    Takes n (p >>= f) (us ++ vs) rest R := by
  intro s hle hs hts hne
  rw [List.append_assoc] at hts
  obtain ⟨a, ha, hQ⟩ := hp s hle hs hts (by simp [hne])
  have hrest := ParseState.ahead_past hts
  have hlt := ParseState.remaining_past hts
  obtain ⟨b, hb, hR⟩ := hf a hQ (s.past us.length) (by omega)
    (hrest ▸ (hts ▸ hs).of_append (by simp [hne])) hrest hne
  refine ⟨b, ?_, hR⟩
  rw [bind_of_ok ha, hb, ParseState.past_past, List.length_append]

/-- A first step that takes one token. -/
theorem Takes.cons {p : Parse α} {f : α → Parse β} {Q : α → Prop} {R : β → Prop} {t : Token}
    (hp : Takes n p [t] (ts ++ rest) Q) (hf : ∀ a, Q a → Takes (n - 1) (f a) ts rest R) :
    Takes n (p >>= f) (t :: ts) rest R := hp.bind hf

/-- After the last token a step may still go on. -/
theorem Takes.last {p : Parse α} {f : α → Parse β} {Q : α → Prop} {R : β → Prop}
    (hp : Takes n p ts rest Q) (hf : ∀ a, Q a → Takes (n - ts.length) (f a) [] rest R) :
    Takes n (p >>= f) ts rest R := by
  have h : Takes n (p >>= f) (ts ++ []) rest R := Takes.bind hp hf
  rwa [List.append_nil] at h

/-- The last of several steps. -/
theorem Takes.yield {p : Parse α} {f : α → β} {Q : α → Prop} {R : β → Prop}
    (hp : Takes n p ts rest Q) (hf : ∀ a, Q a → R (f a)) :
    Takes n (p >>= fun a => Pure.pure (f a)) ts rest R := by
  intro s hle hs hts hne
  obtain ⟨a, ha, hQ⟩ := hp s hle hs hts hne
  exact ⟨f a, by rw [bind_of_ok ha, pure_eq], hf a hQ⟩

/-- What is made of what a step yields is yielded by the same tokens. -/
theorem Takes.map {p : Parse α} {f : α → β} {Q : α → Prop} {R : β → Prop}
    (hp : Takes n p ts rest Q) (hf : ∀ a, Q a → R (f a)) : Takes n (f <$> p) ts rest R :=
  hp.yield hf

/-- Where fewer tokens are left the same are taken, and less may be asked of what is
yielded. -/
theorem Takes.mono {m : ℕ} {p : Parse α} {Q R : α → Prop}
    (h : Takes n p ts rest Q) (hm : m ≤ n) (hQ : ∀ a, Q a → R a) : Takes m p ts rest R := by
  intro s hle hs hts hne
  obtain ⟨a, ha, hq⟩ := h s (by omega) hs hts hne
  exact ⟨a, ha, hQ a hq⟩

/-- Rules under way have no bearing on what is taken. -/
theorem Takes.within {p : Parse α} {rule : Rule} {Q : α → Prop} (h : Takes n p ts rest Q) :
    Takes n (within rule p) ts rest Q := by
  intro s hle hs hts hne
  obtain ⟨a, ha, hQ⟩ := h { s with rules := rule :: s.rules } hle hs hts hne
  exact ⟨a, within_eq ha, hQ⟩

/-! ## Choice -/

/-- The next token is looked at. -/
theorem Takes.peek {q : Parse β} {g : Token → β} (hq : Peeks q g) {f : β → Parse α}
    {Q : α → Prop} {b : β} (hb : ∀ t : Token, t.WellMade → t ∈ (ts ++ rest).head? → g t = b)
    (h : Takes n (f b) ts rest Q) : Takes n (q >>= f) ts rest Q := by
  intro s hle hs hts hne
  obtain ⟨t, ahead, ht⟩ := List.exists_cons_of_ne_nil hs.ne_nil
  rw [bind_of_ok (hq s t ahead ht), hb t (ht ▸ hs).wellMade (by rw [← hts, ht]; rfl)]
  exact h s hle hs hts hne

/-- The next token is looked at as a whole. -/
theorem Takes.current {f : Token → Parse α} {Q : α → Prop}
    (h : ∀ t : Token, t.WellMade → t ∈ (ts ++ rest).head? → Takes n (f t) ts rest Q) :
    Takes n (Parse.current >>= f) ts rest Q := by
  intro s hle hs hts hne
  obtain ⟨t, ahead, ht⟩ := List.exists_cons_of_ne_nil hs.ne_nil
  rw [bind_of_ok (peeks_current s t ahead ht)]
  exact h t (ht ▸ hs).wellMade (by rw [← hts, ht]; rfl) s hle hs hts hne

/-- The next token is of the kind, so the step goes on with the first branch. -/
theorem Takes.check {kind : TokenKind} {f : Bool → Parse α} {Q : α → Prop}
    (hk : Follow (·.kind = kind) (ts ++ rest)) (h : Takes n (f true) ts rest Q) :
    Takes n (check kind >>= f) ts rest Q :=
  .peek (peeks_check kind) (fun t _ ht => decide_eq_true (hk t ht)) h

/-- The next token is not of the kind, so the step goes on with the second branch. -/
theorem Takes.checkNot {kind : TokenKind} {f : Bool → Parse α} {Q : α → Prop}
    (hk : Follow (·.kind ≠ kind) (ts ++ rest)) (h : Takes n (f false) ts rest Q) :
    Takes n (Parse.check kind >>= f) ts rest Q :=
  .peek (peeks_check kind) (fun t _ ht => decide_eq_false (hk t ht)) h

/-- The next token is the word. -/
theorem Takes.word {w : String} {f : Bool → Parse α} {Q : α → Prop}
    (hw : Follow (Token.IsWord w) (ts ++ rest)) (h : Takes n (f true) ts rest Q) :
    Takes n (checkWord w >>= f) ts rest Q := by
  refine .peek (peeks_checkWord w) (fun t _ ht => ?_) h
  simpa [Token.IsWord] using hw t ht

/-- The next token is not the word. -/
theorem Takes.wordNot {w : String} {f : Bool → Parse α} {Q : α → Prop}
    (hw : Follow (¬Token.IsWord w ·) (ts ++ rest)) (h : Takes n (f false) ts rest Q) :
    Takes n (checkWord w >>= f) ts rest Q := by
  refine .peek (peeks_checkWord w) (fun t _ ht => ?_) h
  simpa [Token.IsWord] using hw t ht

/-- The next token is the soft keyword. -/
theorem Takes.keyword {w : String} {f : Bool → Parse α} {Q : α → Prop}
    (hs : decide (w ∈ Token.softKeywords) = true) (hw : Follow (Token.IsWord w) (ts ++ rest))
    (h : Takes n (f true) ts rest Q) :
    Takes n (checkKeyword w >>= f) ts rest Q := by
  have hs := of_decide_eq_true hs
  exact .peek (peeks_checkKeyword w) (fun t ht h => (ht.keyword_iff hs).mpr (hw t h)) h

/-- The next token is not the soft keyword. -/
theorem Takes.keywordNot {w : String} {f : Bool → Parse α} {Q : α → Prop}
    (hs : decide (w ∈ Token.softKeywords) = true)
    (hw : Follow (¬Token.IsWord w ·) (ts ++ rest)) (h : Takes n (f false) ts rest Q) :
    Takes n (checkKeyword w >>= f) ts rest Q := by
  have hs := of_decide_eq_true hs
  refine .peek (peeks_checkKeyword w) (fun t ht h' => ?_) h
  rw [Bool.eq_false_iff]
  exact fun h => hw t h' ((ht.keyword_iff hs).mp h)

/-- The token behind the next one is looked at. -/
theorem Takes.lookOne {f : Token → Parse α} {Q : α → Prop} {t u : Token} {vs : List Token}
    (h : ts ++ rest = t :: u :: vs) (hf : Takes n (f u) ts rest Q) :
    Takes n (look 1 >>= f) ts rest Q := by
  intro s hle hs hts hne
  have next : look 1 s = (.ok u, s) :=
    look_eq (show s.ahead = [t] ++ u :: vs from hts.trans h)
  rw [bind_of_ok next]
  exact hf s hle hs hts hne

/-- A map field starts. -/
theorem Takes.mapField {f : Bool → Parse α} {Q : α → Prop} (h : startsMapField (ts ++ rest))
    (hf : Takes n (f true) ts rest Q) : Takes n (Grammar.atMapField >>= f) ts rest Q := by
  classical
  intro s hle hs hts hne
  rw [bind_of_ok (atMapField_eq hs), decide_eq_true (hts ▸ h)]
  exact hf s hle hs hts hne

/-- No map field starts. -/
theorem Takes.mapFieldNot {f : Bool → Parse α} {Q : α → Prop}
    (h : ¬startsMapField (ts ++ rest)) (hf : Takes n (f false) ts rest Q) :
    Takes n (Grammar.atMapField >>= f) ts rest Q := by
  classical
  intro s hle hs hts hne
  rw [bind_of_ok (atMapField_eq hs), decide_eq_false (hts ▸ h)]
  exact hf s hle hs hts hne

/-! ## Tokens -/

theorem takes_advance {t : Token} (ht : t.kind ≠ .endOfInput) :
    Takes n advance [t] rest (· = t) := by
  intro s _ _ hts _
  exact ⟨t, advance_eq hts ht, rfl⟩

/-- A token of the kind is taken. -/
theorem takes_consume {t : Token} {kind : TokenKind} (ht : t.kind = kind)
    (wanted : Expectation) (hk : kind.isAskedFor = true) :
    Takes n (consume kind wanted) [t] rest (· = t) := by
  have hk := (TokenKind.ne_of_isAskedFor hk).1
  intro s _ _ hts _
  exact ⟨t, consume_eq hts ht hk wanted, rfl⟩

theorem takes_consumeMark {kind : TokenKind} (h : ts ∈ Rendering.mark kind) (m : String)
    (hk : kind.isAskedFor = true) : Takes n (consumeMark kind m) ts rest fun _ => True := by
  obtain ⟨t, ht, rfl⟩ := h
  exact (takes_consume ht (.spelled m) hk).yield fun _ _ => trivial

theorem takes_consumeWord {w : String} (h : ts ∈ Rendering.word w) :
    Takes n (consumeWord w) ts rest fun t => ts = [t] := by
  obtain ⟨t, ht, rfl⟩ := h
  refine .word (follow_cons.mpr ht) ((takes_advance (by simp [ht.1])).mono le_rfl ?_)
  rintro _ rfl
  rfl

/-- The rendering of a name is taken, and the name is yielded. -/
theorem takes_consumeName {x : Text} (h : ts ∈ Rendering.name x) (wanted : Expectation) :
    Takes n (consumeName wanted) ts rest (· = x) := by
  obtain ⟨hx, t, ⟨hk, rfl⟩, rfl⟩ := h
  refine .current fun u hu ht => ?_
  cases ht
  have soft : t.soft = false := by
    rw [hu.soft_eq, hx, Bool.and_false]
  rw [if_neg (by simp [hk, soft])]
  exact (takes_advance (by simp [hk])).yield fun _ h => by rw [h]

/-- The next token is of one of the kinds and is taken. -/
theorem Takes.accept {t : Token} {kinds : List TokenKind} {f : Bool → Parse α} {Q : α → Prop}
    (hk : kinds.all TokenKind.isAskedFor = true) (ht : t.kind ∈ kinds)
    (h : Takes (n - 1) (f true) ts rest Q) :
    Takes n (accept kinds >>= f) (t :: ts) rest Q := by
  have hp : Takes n (Parse.accept kinds) [t] (ts ++ rest) (· = true) := by
    intro s _ _ hts _
    have := accept_eq hts (TokenKind.end_notMem hk)
    rw [if_pos ht] at this
    exact ⟨true, this, rfl⟩
  exact hp.bind fun b hb => hb ▸ h

/-- The next token is of none of the kinds and stays. -/
theorem Takes.acceptNot {kinds : List TokenKind} {f : Bool → Parse α} {Q : α → Prop}
    (hk : kinds.all TokenKind.isAskedFor = true) (hf : Follow (·.kind ∉ kinds) (ts ++ rest))
    (h : Takes n (f false) ts rest Q) : Takes n (Parse.accept kinds >>= f) ts rest Q := by
  intro s hle hs hts hne
  obtain ⟨t, ahead, ht⟩ := List.exists_cons_of_ne_nil hs.ne_nil
  have hn := accept_eq ht (TokenKind.end_notMem hk)
  rw [if_neg (hf t (by rw [← hts, ht]; rfl))] at hn
  rw [bind_of_ok hn]
  exact h s hle hs hts hne

/-! ## Repetition -/

/-- A loop takes a list of pieces: each starts as the test of the loop wants it, and what
stands behind the last does not. -/
theorem Takes.whileMore {c : ℕ} {more : Parse Bool} {g : Token → Bool} {element : Parse α}
    {F : β → Language Token} {P : Token → Prop} {Q : β → α → Prop} {bs : List β}
    (hmore : ∀ s t rest, s.ahead = t :: rest →
      more s = if g t then (.ok true, s.past c) else (.ok false, s))
    (hF : ∀ b ∈ bs, ∀ us ∈ F b, Starts (fun t => g t ∧ P t) us)
    (hE : ∀ b ∈ bs, ∀ us ∈ F b, ∀ rest, Follow P rest →
      Takes n (fun s => element (s.past c)) us rest (Q b))
    (h : ts ∈ (bs.map F).prod) (hrest : Follow (fun t => g t = false ∧ P t) rest) :
    Takes n (whileMore more element) ts rest fun as => List.Forall₂ Q bs as := by
  induction bs generalizing n ts with
  | nil =>
    rw [show ts = [] from h]
    intro s _ hs hts _
    obtain ⟨t, ahead, ht⟩ := List.exists_cons_of_ne_nil hs.ne_nil
    have hm : more s = (.ok false, s) := by
      rw [hmore s t ahead ht, (hrest t (by rw [← List.nil_append rest, ← hts, ht]; rfl)).1]
      rfl
    refine ⟨[], ?_, .nil⟩
    rw [← bind_pure (Parse.whileMore more element), whileMore_stop hm, pure_eq]
    rfl
  | cons b bs ih =>
    obtain ⟨us, hu, vs, hv, rfl⟩ := h
    have hfirst := hF b (by simp) us hu
    have hF' : ∀ c ∈ bs, ∀ us ∈ F c, Starts (fun t => g t ∧ P t) us :=
      fun c hc => hF c (by simp [hc])
    have follow : Follow P (vs ++ rest) :=
      follow_prod (fun c hc us hu => (hF' c hc us hu).mono fun _ h => h.2) hv
        (hrest.mono fun _ h => h.2)
    have first := hE b (by simp) us hu (vs ++ rest) follow
    have next : Takes (n - us.length) (Parse.whileMore more element) vs rest _ :=
      ih hF' (fun c hc us hu rest hr => (hE c (by simp [hc]) us hu rest hr).mono (by omega)
        fun _ => id) hv
    have both := first.bind fun a ha => next.yield fun as has => List.Forall₂.cons ha has
    intro s hle hs hts hrest'
    obtain ⟨as, has, hQ⟩ := both s hle hs hts hrest'
    refine ⟨as, ?_, hQ⟩
    obtain ⟨u, us, rfl, hg, -⟩ := hfirst
    have ht : s.ahead = u :: (us ++ vs ++ rest) := by simpa using hts
    have hm : more s = (.ok true, s.past c) := by
      rw [hmore s u _ ht, if_pos hg]
    rw [← bind_pure (Parse.whileMore more element), whileMore_step hm]
    · exact has
    · intro a s₂ ha
      rw [List.append_assoc] at hts
      obtain ⟨a', ha', -⟩ := first s hle hs hts (by simp [hrest'])
      simp only [ha, Prod.mk.injEq] at ha'
      have := ParseState.remaining_past hts
      rw [ha'.2, this]
      simp

/-- A step behind a token that is passed over. -/
theorem Takes.past_one {p : Parse α} {t : Token} {Q : α → Prop} (h : Takes n p ts rest Q)
    (ht : t.kind ≠ .endOfInput) : Takes n (fun s => p (s.past 1)) (t :: ts) rest Q := by
  intro s hle hs hts hne
  have hrest := ParseState.ahead_past_one hts
  have hlt := ParseState.remaining_past_one hts
  obtain ⟨a, ha, hQ⟩ := h (s.past 1) (by omega) (hrest ▸ (hts ▸ hs).tail ht) hrest hne
  refine ⟨a, ?_, hQ⟩
  show p (s.past 1) = _
  rw [ha, ParseState.past_past, List.length_cons, Nat.add_comm]

/-- The renderings of elements are taken with the separators between them. No element must be
able to go on behind a separator. -/
theorem Takes.separatedBy {separator : TokenKind} {element : Parse α} {E : β → Language Token}
    {P : Token → Prop} {Q : β → α → Prop} {bs : List β} (hk : separator.isAskedFor = true)
    (hP : ∀ t : Token, t.kind = separator → P t)
    (hE : ∀ b ∈ bs, ∀ us ∈ E b, ∀ rest, Follow P rest → Takes n element us rest (Q b))
    (h : ts ∈ Rendering.separated separator E bs)
    (hrest : Follow (fun t => t.kind ≠ separator ∧ P t) rest) :
    Takes n (separatedBy separator element) ts rest fun as => List.Forall₂ Q bs as := by
  have he := (TokenKind.ne_of_isAskedFor hk).1
  cases bs with
  | nil => cases h
  | cons b bs =>
    obtain ⟨us, hu, vs, hv, rfl⟩ := h
    let F (b : β) : Language Token := Rendering.mark separator * E b
    have starts : ∀ b ∈ bs, ∀ us ∈ F b,
        Starts (fun t => decide (t.kind = separator) ∧ P t) us := by
      rintro b - _ ⟨_, ⟨t, ht, rfl⟩, us, -, rfl⟩
      exact starts_cons.mpr ⟨by simpa using ht, hP t ht⟩
    have follow : Follow P (vs ++ rest) :=
      follow_prod (fun b hb us hu => (starts b hb us hu).mono fun _ h => h.2) hv
        (hrest.mono fun _ h => h.2)
    refine (hE b (by simp) us hu _ follow).bind fun a ha => ?_
    refine Takes.yield
      (Takes.whileMore (c := 1) (P := P) (Q := Q) (F := F) ?_ starts ?_ hv ?_)
      fun as has => List.Forall₂.cons ha has
    · intro s t rest ht
      have h : TokenKind.endOfInput ∉ [separator] := by simpa using he.symm
      simpa using accept_eq ht h
    · rintro b hb _ ⟨_, ⟨t, ht, rfl⟩, us, hu, rfl⟩ rest hrest
      refine (Takes.past_one ?_ (ht ▸ he)).mono (Nat.sub_le _ _) fun _ => id
      exact hE b (by simp [hb]) us hu rest hrest
    · simpa using hrest

/-- Elements up to a mark, which is taken. -/
theorem Takes.until {close : TokenKind} {element : Parse α} {F : β → Language Token}
    {P : Token → Prop} {Q : β → α → Prop} {bs : List β} {f : List α → γ} {R : γ → Prop}
    (hk : close.isAskedFor = true) (hP : ∀ t : Token, t.kind = close → P t)
    (hF : ∀ b ∈ bs, ∀ us ∈ F b, Starts (fun t => t.kind ≠ close ∧ P t) us)
    (hE : ∀ b ∈ bs, ∀ us ∈ F b, ∀ rest, Follow P rest → Takes n element us rest (Q b))
    (h : ts ∈ (bs.map F).prod * Rendering.mark close)
    (hR : ∀ as, List.Forall₂ Q bs as → R (f as)) : Takes n (do
      let as ← Parse.whileMore (return !(← Parse.check close)) element
      let _ ← advance
      return f as) ts rest R := by
  have he := (TokenKind.ne_of_isAskedFor hk).1
  obtain ⟨us, hu, _, ⟨t, ht, rfl⟩, rfl⟩ := h
  have hmore := (peeks_check close).bind_pure (! ·)
  have loop :
      Takes n (Parse.whileMore (return !(← Parse.check close)) element) us ([t] ++ rest)
      fun as => List.Forall₂ Q bs as := by
    refine Takes.whileMore (c := 0) (g := fun t => !t.kind = close) (P := P) (F := F)
      (fun s t rest => hmore.eq_ite) ?_ hE hu (by simpa using ⟨ht, hP t ht⟩)
    exact fun b hb us hu => (hF b hb us hu).mono fun t ht => by simpa using ht
  exact loop.bind fun as has => (takes_advance (ht ▸ he)).yield fun _ _ => hR as has

/-- A step that uses itself where fewer tokens are left. -/
theorem Takes.recursive {step : Parse α → Parse α} {L : β → Language Token} {Q : β → α → Prop}
    (h : ∀ n q, (∀ b, ∀ ts ∈ L b, ∀ rest, Takes n q ts rest (Q b)) →
      ∀ b, ∀ ts ∈ L b, ∀ rest, Takes (n + 1) (step q) ts rest (Q b))
    {b : β} (hts : ts ∈ L b) : Takes n (recursive step) ts rest (Q b) := by
  intro s hle hs hahead hne
  induction hr :
    s.remaining using Nat.strong_induction_on generalizing s ts rest b with | _ m ih
  rw [recursive_eq]
  refine h (m - 1) _ (fun b us hu rest' t hlt ht hahead' hne' => ?_) b ts hts rest
    s (by omega) hs
    hahead hne
  have hpos : 0 < t.remaining := ParseState.remaining_pos ht.ne_nil
  rw [if_pos (by omega)]
  exact ih t.remaining (by omega) hu t (by omega) ht hahead' hne' rfl

/-- A numeral that denotes a number yields it and takes no token. -/
theorem takes_ofNumeral {r : Except NumeralError α} {a : α} (hr : r = .ok a) :
    Takes n (ofNumeral r) [] rest (· = a) := by
  subst hr
  exact Takes.pure rfl

end Parse

end ProtoSchema
