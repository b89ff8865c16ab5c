import ProtoSchema.Proofs.Parsing.Step
import ProtoSchema.Proofs.Rendering.Word

/-!
# What a parsing step may do

`Reads placed n pre p L` says of the step `p` that it reads renderings in `L`. A step that
yields `a` took tokens off the front that render `a`. A step that fails rejects a token, and
as many tokens as it took before can be completed to a rendering: it never takes a token that
leads nowhere. Both hold where the next token is as `pre` says and no more than `n` tokens are
left; no other failure is possible there.

There is one rule for each way of building a step, so that the law of a production follows its
text.
-/
namespace ProtoSchema

variable {α β : Type}

/-- Something has a rendering in usable tokens. -/
def Completable (L : α → Language Token) : Prop := ∃ a, ∃ ts ∈ L a, ∀ t ∈ ts, t.Usable

/-- What is left of a rendering when its first tokens have been read. -/
def after (ts : List Token) (L : α → Language Token) (a : α) : Language Token :=
  {us | ts ++ us ∈ L a}

@[simp] theorem mem_after {ts us : List Token} {L : α → Language Token} {a : α} :
    us ∈ after ts L a ↔ ts ++ us ∈ L a := Iff.rfl

/-- If something can follow usable tokens, these and that can stand in their place. -/
theorem Completable.append {L : β → Language Token} {us : List Token}
    (hus : ∀ t ∈ us, t.Usable) (h : Completable (after us L)) : Completable L := by
  obtain ⟨b, vs, hv, hvs⟩ := h
  exact ⟨b, us ++ vs, hv, fun t ht => (List.mem_append.mp ht).elim (hus t) (hvs t)⟩

/-- What can be completed within a grammar can be within a wider one. -/
theorem Completable.mono {K L : α → Language Token} (h : Completable K)
    (hKL : ∀ a us, us ∈ K a → us ∈ L a) : Completable L := by
  obtain ⟨a, us, hu, hus⟩ := h
  exact ⟨a, us, hKL a us hu, hus⟩

namespace Parse

variable {placed : Prop} {n : ℕ} {pre : Token → Prop}

/-- What a step that reads `L` may come to. A tree with positions says where its tokens stand,
so only trees without positions can be completed freely. -/
def Outcome (placed : Prop) (L : α → Language Token) (s : ParseState) :
    Except ParseFailure α × ParseState → Prop
  | (.ok a, s') => ∃ us rest, s.ahead = us ++ rest ∧ rest ≠ [] ∧ s' = s.past us.length ∧
      us ∈ L a ∧ ∀ t ∈ us, t.kind ≠ .malformedNumber
  | (.error (.unexpected e), s') => ∃ us rest, s.ahead = us ++ e.actual :: rest ∧
      s' = s.past us.length ∧ (∀ t ∈ us, t.kind ≠ .malformedNumber) ∧
      (¬placed → Completable (after us L))
  | (.error _, _) => False

/-- The step reads `L` where the next token is as `pre` says and at most `n` tokens are
left. -/
structure Reads (placed : Prop) (n : ℕ) (pre : Token → Prop) (p : Parse α)
    (L : α → Language Token) : Prop where
  completable : ¬placed → Completable L
  run : ∀ s : ParseState, Ended s.ahead → s.remaining ≤ n → (∀ t ∈ s.ahead.head?, pre t) →
    Outcome placed L s (p s)

/-! ## Sequence -/

/-- The outcome of a step behind tokens that were read before. -/
theorem Outcome.past {L : α → Language Token} {s : ParseState} {us rest : List Token}
    {r : Except ParseFailure α × ParseState} (hs : s.ahead = us ++ rest)
    (hu : ∀ t ∈ us, t.kind ≠ .malformedNumber)
    (h : Outcome placed (after us L) (s.past us.length) r) : Outcome placed L s r := by
  have hrest := ParseState.ahead_past hs
  have all {vs : List Token} (hv : ∀ t ∈ vs, t.kind ≠ .malformedNumber) :
      ∀ t ∈ us ++ vs, t.kind ≠ .malformedNumber := fun t ht =>
    (List.mem_append.mp ht).elim (hu t) (hv t)
  rcases r with ⟨⟨_ | _ | _ | _⟩ | a, s'⟩
  · obtain ⟨vs, rest', h₁, h₂, h₃, h₄⟩ := h
    refine ⟨us ++ vs, rest', ?_, ?_, all h₃, fun hp => ?_⟩
    · rw [hs, ← hrest, h₁, List.append_assoc]
    · rw [h₂, ParseState.past_past, List.length_append]
    · obtain ⟨a, ws, hw, hws⟩ := h₄ hp
      exact ⟨a, ws, by simpa using hw, hws⟩
  · exact h
  · exact h
  · exact h
  · obtain ⟨vs, rest', h₁, h₂, h₃, h₄, h₅⟩ := h
    refine ⟨us ++ vs, rest', ?_, h₂, ?_, h₄, all h₅⟩
    · rw [hs, ← hrest, h₁, List.append_assoc]
    · rw [h₃, ParseState.past_past, List.length_append]

/-- The outcome of a step and of what follows it. -/
theorem Outcome.bind {K : α → Language Token} {L : β → Language Token} {p : Parse α}
    {f : α → Parse β} {s : ParseState} (h : Outcome placed K s (p s))
    (hc : ¬placed → ∀ a us, us ∈ K a → Completable (after us L))
    (hf : ∀ a us rest, s.ahead = us ++ rest → rest ≠ [] → us ∈ K a →
      Outcome placed (after us L) (s.past us.length) (f a (s.past us.length))) :
    Outcome placed L s ((p >>= f) s) := by
  rw [bind_eq]
  rcases hr : p s with ⟨⟨_ | _ | _ | _⟩ | a, s'⟩ <;> rw [hr] at h
  · obtain ⟨us, rest, h₁, h₂, h₃, h₄⟩ := h
    refine ⟨us, rest, h₁, h₂, h₃, fun hn => ?_⟩
    obtain ⟨a, vs, hv, hvs⟩ := h₄ hn
    exact .append hvs ((hc hn a (us ++ vs) hv).mono fun _ _ => by simp)
  · exact h
  · exact h
  · exact h
  · obtain ⟨us, rest, h₁, h₂, rfl, h₄, h₅⟩ := h
    exact .past h₁ h₅ (hf a us rest h₁ h₂ h₄)

/-- After a step, the next one reads what is left. The tokens that the first step took begin
with the token that was seen there. -/
theorem Reads.bind {p : Parse α} {f : α → Parse β} {K : α → Language Token}
    {L : β → Language Token} (hp : Reads placed n pre p K)
    (hf : ∀ a us, us ∈ K a → (placed → ∀ t ∈ us.head?, pre t) →
      Reads placed (n - us.length) (fun _ => True) (f a) (after us L)) :
    Reads placed n pre (p >>= f) L where
  completable hn := by
    obtain ⟨a, us, hu, hus⟩ := hp.completable hn
    exact .append hus ((hf a us hu fun h => absurd h hn).completable hn)
  run s hs hle hpre := by
    refine (hp.run s hs hle hpre).bind
      (fun hn a us hu => (hf a us hu fun h => absurd h hn).completable hn) ?_
    intro a us rest h₁ h₂ hu
    have head : ∀ t ∈ us.head?, pre t := by
      intro t ht
      refine hpre t ?_
      rw [h₁, List.head?_append, ht]
      rfl
    refine (hf a us hu fun _ => head).run _ ?_ ?_ fun _ _ => trivial
    · rw [ParseState.ahead_past h₁]
      exact (h₁ ▸ hs).of_append h₂
    · have := ParseState.remaining_past h₁
      omega

/-- To yield something takes no token. -/
theorem Reads.pure {L : α → Language Token} {a : α} (h : [] ∈ L a) :
    Reads placed n pre (pure a) L where
  completable _ := ⟨a, [], h, by simp⟩
  run s hs _ _ := ⟨[], s.ahead, rfl, hs.ne_nil, rfl, h, by simp⟩

/-- A step reads more than another where less is known. -/
theorem Reads.weaken {m : ℕ} {pre' : Token → Prop} {p : Parse α} {L : α → Language Token}
    (h : Reads placed n pre p L) (hm : m ≤ n)
    (hpre : ∀ t : Token, t.WellMade → pre' t → pre t) : Reads placed m pre' p L where
  completable := h.completable
  run s hs hle hs' := by
    refine h.run s hs (by omega) fun t ht => hpre t ?_ (hs' t ht)
    obtain ⟨ts, hts⟩ := List.head?_eq_some_iff.mp ht
    exact (hts ▸ hs).wellMade

/-- What is read of a grammar is read of a wider one. -/
theorem Outcome.mono {K L : α → Language Token} {s : ParseState}
    {r : Except ParseFailure α × ParseState} (h : Outcome placed K s r)
    (hKL : ∀ a us, us ∈ K a → us ∈ L a) : Outcome placed L s r := by
  rcases r with ⟨⟨_ | _ | _ | _⟩ | a, s'⟩
  · obtain ⟨us, rest, h₁, h₂, h₃, h₄⟩ := h
    exact ⟨us, rest, h₁, h₂, h₃, fun hn => (h₄ hn).mono fun a vs => hKL a (us ++ vs)⟩
  · exact h
  · exact h
  · exact h
  · obtain ⟨us, rest, h₁, h₂, h₃, h₄, h₅⟩ := h
    exact ⟨us, rest, h₁, h₂, h₃, hKL a us h₄, h₅⟩

/-- What renders more is read as well. -/
theorem Reads.mono {p : Parse α} {K L : α → Language Token} (h : Reads placed n pre p K)
    (hKL : ∀ a us, us ∈ K a → us ∈ L a) : Reads placed n pre p L where
  completable hn := (h.completable hn).mono hKL
  run s hs hle hpre := (h.run s hs hle hpre).mono hKL

/-- What is made of what a step yields is read where that is. -/
theorem Reads.map {p : Parse α} {f : α → β} {K : α → Language Token} {L : β → Language Token}
    (hp : Reads placed n pre p K) (hf : ∀ a us, us ∈ K a → us ∈ L (f a)) :
    Reads placed n pre (f <$> p) L :=
  hp.bind fun a us hu _ => .pure (by simpa using hf a us hu)

/-- What is yielded is put into something larger. -/
theorem Reads.yield {p : Parse α} {f : α → β} {K : α → Language Token}
    {L : β → Language Token} (hp : Reads placed n pre p K)
    (hf : ∀ a us, us ∈ K a → us ∈ L (f a)) :
    Reads placed n pre (p >>= fun a => Pure.pure (f a)) L :=
  hp.bind fun a us hu _ => .pure (by simpa using hf a us hu)

/-- Where positions matter, what is read starts with the token that was seen there. -/
theorem Reads.first {p : Parse α} {L : α → Language Token} (h : Reads placed n pre p L) :
    Reads placed n pre p fun a => {ts | ts ∈ L a ∧ (placed → ∀ t ∈ ts.head?, pre t)} := by
  rw [← bind_pure p]
  refine h.bind fun a us hu first => .pure ?_
  show us ++ [] ∈ L a ∧ (placed → ∀ t ∈ (us ++ []).head?, pre t)
  rw [List.append_nil]
  exact ⟨hu, first⟩

/-- What is read starts with the token that was seen there. -/
theorem Reads.head {p : Parse α} {L : α → Language Token} {P : Token → Prop}
    (h : Reads placed n pre p L) (hP : ∀ t : Token, t.WellMade → pre t → P t)
    (hc : ¬placed → Completable fun a => {ts | ts ∈ L a ∧ ∀ t ∈ ts.head?, P t}) :
    Reads placed n pre p fun a => {ts | ts ∈ L a ∧ ∀ t ∈ ts.head?, P t} where
  completable := hc
  run s hs hle hpre := by
    obtain ⟨t, rest, ht⟩ := List.exists_cons_of_ne_nil hs.ne_nil
    have first : P t := hP t (ht ▸ hs).wellMade (hpre t (by simp [ht]))
    have h := h.run s hs hle hpre
    -- Whatever is taken starts with `t`.
    have head {us vs : List Token} (h₁ : s.ahead = us ++ vs) (hne : us ≠ [])
        (ws : List Token) :
        ∀ u ∈ (us ++ ws).head?, P u := by
      obtain ⟨u, us, rfl⟩ := List.exists_cons_of_ne_nil hne
      rw [ht, List.cons_append] at h₁
      injection h₁ with h₁
      simpa [← h₁] using first
    rcases hr : p s with ⟨⟨_ | _ | _ | _⟩ | a, s'⟩ <;> rw [hr] at h
    · obtain ⟨us, rest, h₁, h₂, h₃, h₄⟩ := h
      refine ⟨us, rest, h₁, h₂, h₃, fun hn => ?_⟩
      rcases eq_or_ne us [] with rfl | hne
      · exact (hc hn).mono fun _ _ => id
      · exact (h₄ hn).mono fun a vs hv => ⟨hv, head h₁ hne vs⟩
    · exact h
    · exact h
    · exact h
    · obtain ⟨us, rest', h₁, h₂, h₃, h₄, h₅⟩ := h
      refine ⟨us, rest', h₁, h₂, h₃, ⟨h₄, ?_⟩, h₅⟩
      rcases eq_or_ne us [] with rfl | hne
      · simp
      · simpa using head h₁ hne []

/-! ## Choice -/

/-- Every token is read on with what it shows. -/
theorem Reads.peek {q : Parse β} {g : Token → β} (hq : Peeks q g) {f : β → Parse α}
    {L : α → Language Token} (h : ∀ b, Reads placed n (fun t => pre t ∧ g t = b) (f b) L)
    [Nonempty β] :
    Reads placed n pre (q >>= f) L where
  completable := (h (Classical.arbitrary β)).completable
  run s hs hle hpre := by
    obtain ⟨t, rest, ht⟩ := List.exists_cons_of_ne_nil hs.ne_nil
    rw [bind_of_ok (hq s t rest ht)]
    refine (h (g t)).run s hs hle fun u hu => ⟨hpre u hu, ?_⟩
    rw [ht] at hu
    cases hu
    rfl

/-- The next token is looked at as a whole. Only well-made tokens need be read on with. -/
theorem Reads.current {f : Token → Parse α} {L : α → Language Token}
    (hL : ¬placed → Completable L)
    (h : ∀ t : Token, t.WellMade → pre t → Reads placed n (· = t) (f t) L) :
    Reads placed n pre (Parse.current >>= f) L where
  completable := hL
  run s hs hle hpre := by
    obtain ⟨t, rest, ht⟩ := List.exists_cons_of_ne_nil hs.ne_nil
    rw [bind_of_ok (peeks_current s t rest ht)]
    refine (h t (ht ▸ hs).wellMade (hpre t (by simp [ht]))).run s hs hle fun u hu => ?_
    rw [ht] at hu
    cases hu
    rfl

/-- A step that looks at the next token first and puts its position into what it yields. -/
theorem Reads.starting {f : Token → Parse α} {K : α → Language Token}
    {position : α → Position} (h : ∀ t : Token, t.WellMade →
      Reads placed n (· = t) (f t) fun a => {ts | ts ∈ K a ∧ position a = t.position})
    (hK : ∀ a, [] ∉ K a) :
    Reads placed n pre (Parse.current >>= f) fun a =>
      Rendering.starting placed (position a) (K a) := by
  have mem {t : Token} {a : α} {us : List Token} (hu : us ∈ K a ∧ position a = t.position)
      (first : placed → ∀ u ∈ us.head?, u = t) :
      us ∈ Rendering.starting placed (position a) (K a) :=
    Rendering.mem_starting hu.1 (hK a) hu.2 first
  refine .current (fun hn => ?_) fun t ht _ =>
    (h t ht).first.mono fun a us hu => mem hu.1 hu.2
  obtain ⟨t, -, ht⟩ := Token.exists_identifier []
  exact ((h t ht.toWellMade).completable hn).mono fun a us hu => mem hu fun h => absurd h hn

/-- What a known token shows is known. -/
theorem Reads.peek_eq {q : Parse β} {g : Token → β} (hq : Peeks q g) {t : Token}
    {f : β → Parse α} {L : α → Language Token} (h : Reads placed n (· = t) (f (g t)) L) :
    Reads placed n (· = t) (q >>= f) L where
  completable := h.completable
  run s hs hle hpre := by
    obtain ⟨u, rest, hu⟩ := List.exists_cons_of_ne_nil hs.ne_nil
    rw [bind_of_ok (hq s u rest hu), hpre u (by simp [hu])]
    exact h.run s hs hle hpre

/-- A test of the next token chooses between two steps. What the first reads can be completed,
so the second may reject. -/
theorem Reads.test {q : Parse Bool} {g : Token → Bool} (hq : Peeks q g) {f : Bool → Parse α}
    {L : α → Language Token} (h₁ : Reads placed n (fun t => pre t ∧ g t = true) (f true) L)
    (h₂ : (¬placed → Completable L) →
      Reads placed n (fun t => pre t ∧ g t = false) (f false) L) :
    Reads placed n pre (q >>= f) L :=
  .peek hq fun b => match b with
    | true => h₁
    | false => h₂ h₁.completable

/-- The same with the rejection in the first place. -/
theorem Reads.testNot {q : Parse Bool} {g : Token → Bool} (hq : Peeks q g)
    {f : Bool → Parse α} {L : α → Language Token}
    (h₁ : (¬placed → Completable L) → Reads placed n (fun t => pre t ∧ g t = true) (f true) L)
    (h₂ : Reads placed n (fun t => pre t ∧ g t = false) (f false) L) :
    Reads placed n pre (q >>= f) L :=
  .peek hq fun b => match b with
    | true => h₁ h₂.completable
    | false => h₂

/-- A test for a soft keyword. -/
theorem Reads.keyword {w : String} {f : Bool → Parse α} {L : α → Language Token}
    (hw : decide (w ∈ Token.softKeywords) = true)
    (h₁ : Reads placed n (fun t => pre t ∧ t.IsWord w) (f true) L)
    (h₂ : (¬placed → Completable L) →
      Reads placed n (fun t => pre t ∧ ¬t.IsWord w) (f false) L) :
    Reads placed n pre (checkKeyword w >>= f) L := by
  have hw := of_decide_eq_true hw
  refine .test (peeks_checkKeyword w) (h₁.weaken le_rfl fun t ht h => ?_) fun hL =>
    (h₂ hL).weaken le_rfl fun t ht h => ⟨h.1, fun h' => ?_⟩
  · exact ⟨h.1, (ht.keyword_iff hw).mp h.2⟩
  · rw [(ht.keyword_iff hw).mpr h'] at h
    exact absurd h.2 nofun

/-- A test for a word. -/
theorem Reads.word {w : String} {f : Bool → Parse α} {L : α → Language Token}
    (h₁ : Reads placed n (fun t => pre t ∧ t.IsWord w) (f true) L)
    (h₂ : (¬placed → Completable L) →
      Reads placed n (fun t => pre t ∧ ¬t.IsWord w) (f false) L) :
    Reads placed n pre (checkWord w >>= f) L := by
  refine .test (peeks_checkWord w) (h₁.weaken le_rfl fun t ht h => ⟨h.1, ?_⟩) fun hL =>
    (h₂ hL).weaken le_rfl fun t ht h => ⟨h.1, fun h' => ?_⟩
  · simpa [Token.IsWord] using h.2
  · simp [h'.1, h'.2] at h

/-- A test for a map field. What follows `map` without an angle bracket is not told apart from
what follows other words. -/
theorem Reads.mapField {f : Bool → Parse α} {L : α → Language Token}
    (h₁ : Reads placed n pre (f true) L) (h₂ : Reads placed n pre (f false) L) :
    Reads placed n pre (Grammar.atMapField >>= f) L where
  completable := h₁.completable
  run s hs hle hpre := by
    classical
    rw [bind_of_ok (atMapField_eq hs)]
    by_cases h : startsMapField s.ahead
    · rw [decide_eq_true h]
      exact h₁.run s hs hle hpre
    · rw [decide_eq_false h]
      exact h₂.run s hs hle hpre

/-- A token may be rejected wherever something else could have stood. -/
theorem Reads.reject {complaint : Complaint} {L : α → Language Token}
    (h : ¬placed → Completable L) : Reads placed n pre (reject complaint) L where
  completable := h
  run s hs _ _ := by
    obtain ⟨t, rest, ht⟩ := List.exists_cons_of_ne_nil hs.ne_nil
    rw [reject_eq ht]
    exact ⟨[], rest, ht, rfl, by simp, fun hn => (h hn).mono fun _ _ => id⟩

/-- Behind a token that is rejected nothing is read. -/
theorem Reads.reject_bind {complaint : Complaint} {f : β → Parse α} {L : α → Language Token}
    (h : ¬placed → Completable L) :
    Reads placed n pre (Parse.reject complaint >>= f) L where
  completable := h
  run s hs _ _ := by
    obtain ⟨t, rest, ht⟩ := List.exists_cons_of_ne_nil hs.ne_nil
    rw [bind_of_error (reject_eq ht complaint)]
    exact ⟨[], rest, ht, rfl, by simp, fun hn => (h hn).mono fun _ _ => id⟩

/-- Rules under way have no bearing on what is read. -/
theorem Reads.within {p : Parse α} {rule : Rule} {L : α → Language Token}
    (h : Reads placed n pre p L) : Reads placed n pre (within rule p) L where
  completable := h.completable
  run s hs hle hpre := by
    have h := h.run { s with rules := rule :: s.rules } hs hle hpre
    rcases hr : p { s with rules := rule :: s.rules } with ⟨⟨_ | _ | _ | _⟩ | a, s'⟩ <;>
      rw [hr] at h <;> rw [within_eq hr]
    · obtain ⟨us, rest, h₁, rfl, h₃⟩ := h
      exact ⟨us, rest, h₁, rfl, h₃⟩
    · exact h
    · exact h
    · exact h
    · obtain ⟨us, rest, h₁, h₂, rfl, h₃⟩ := h
      exact ⟨us, rest, h₁, h₂, rfl, h₃⟩

/-! ## Tokens -/

/-- A token that is known to be usable is taken. -/
theorem reads_advance {P : Token → Prop} (ex : ∃ t, P t ∧ t.Usable)
    (hP : ∀ t, P t → t.kind ≠ .endOfInput ∧ t.kind ≠ .malformedNumber)
    (hpre : ∀ t : Token, t.WellMade → pre t → P t) :
    Reads placed n pre advance fun t => Rendering.one fun u => P u ∧ u = t where
  completable _ := by
    obtain ⟨t, ht, hu⟩ := ex
    exact ⟨t, [t], ⟨t, ⟨ht, rfl⟩, rfl⟩, by simpa using hu⟩
  run s hs _ hs' := by
    obtain ⟨t, rest, ht⟩ := List.exists_cons_of_ne_nil hs.ne_nil
    rw [ht] at hs hs'
    have h : P t := hpre t hs.wellMade (hs' t rfl)
    rw [advance_eq ht (hP t h).1]
    exact ⟨[t], rest, ht, (hs.tail (hP t h).1).ne_nil, rfl, ⟨t, ⟨h, rfl⟩, rfl⟩, by
      simpa using (hP t h).2⟩

/-- The next token is taken unseen where its kind is known. -/
theorem reads_advance_kind {kind : TokenKind}
    (hpre : ∀ t : Token, t.WellMade → pre t → t.kind = kind) (hk : kind.isAskedFor = true) :
    Reads placed n pre advance fun t =>
      Rendering.one fun u => (u.kind = kind ∧ u.WellMade) ∧ u = t := by
  have ⟨he, hm⟩ := TokenKind.ne_of_isAskedFor hk
  obtain ⟨t, ht, hu⟩ := Token.exists_usable he hm
  exact reads_advance ⟨t, ⟨ht, hu.toWellMade⟩, hu⟩ (fun _ h => by rw [h.1]; exact ⟨he, hm⟩)
    fun t ht h => ⟨hpre t ht h, ht⟩

/-- The next token is taken unseen where it is known to be a word. -/
theorem reads_advance_word {w : String}
    (hpre : ∀ t : Token, t.WellMade → pre t → t.IsWord w) :
    Reads placed n pre advance fun t => Rendering.one fun u => u.IsWord w ∧ u = t :=
  reads_advance (Token.exists_identifier _)
    (fun t h => by rw [h.1]; exact ⟨nofun, nofun⟩) hpre

/-- A token of a kind is read, or what stands there is rejected. -/
theorem reads_consume (kind : TokenKind) (wanted : Expectation)
    (hk : kind.isAskedFor = true) : Reads placed n pre (consume kind wanted) fun t =>
      Rendering.one fun u => (u.kind = kind ∧ u.WellMade) ∧ u = t := by
  refine .test (peeks_check kind) ?_ fun h => .reject h
  exact reads_advance_kind (fun t _ h => of_decide_eq_true h.2) hk

theorem reads_consumeMark (kind : TokenKind) (m : String) (hk : kind.isAskedFor = true) :
    Reads placed n pre (consumeMark kind m) fun _ => Rendering.mark kind := by
  refine .bind (reads_consume kind _ hk) fun t us hu _ => .pure ?_
  obtain ⟨u, ⟨hk, rfl⟩, rfl⟩ := hu
  exact ⟨u, hk.1, rfl⟩

theorem reads_consumeWord (w : String) : Reads placed n pre (consumeWord w) fun t =>
    Rendering.one fun u => u.IsWord w ∧ u = t := by
  refine .test (peeks_checkWord w) ?_ fun h => .reject h
  exact reads_advance_word fun t _ h => by simpa [Token.IsWord] using h.2

/-- An identifier that is no soft keyword is read as a name. -/
theorem reads_consumeName (wanted : Expectation) :
    Reads placed n pre (consumeName wanted) Rendering.name := by
  obtain ⟨t, ht, hu⟩ := Token.exists_identifier (Text.ofString "x")
  have hx : Token.isSoftKeyword t.text = false := by
    rw [ht.2]
    decide
  refine .peek peeks_current fun u => ?_
  split
  · exact .reject fun _ => ⟨t.text, [t], ⟨hx, t, ⟨ht.1, rfl⟩, rfl⟩, by simpa using hu⟩
  · rename_i h
    let P (v : Token) : Prop := v.kind = .identifier ∧ Token.isSoftKeyword v.text = false
    refine .bind (reads_advance (P := P) ⟨t, ⟨ht.1, hx⟩, hu⟩ ?_ ?_) fun v us hv _ => .pure ?_
    · intro v hv
      rw [hv.1]
      exact ⟨nofun, nofun⟩
    · rintro v hv ⟨-, rfl⟩
      have := hv.soft_eq
      simp_all [P]
    · obtain ⟨v, ⟨hv, rfl⟩, rfl⟩ := hv
      exact ⟨hv.2, v, ⟨hv.1, rfl⟩, rfl⟩

/-- A token of one of the kinds is taken, or it is known that there is none. -/
theorem Reads.accept {kind : TokenKind} {others : List TokenKind} {f : Bool → Parse α}
    {L : α → Language Token} (hk : (kind :: others).all TokenKind.isAskedFor = true)
    (h₁ : ∀ t : Token, t.kind ∈ kind :: others → (placed → pre t) →
      Reads placed (n - 1) (fun _ => True) (f true) (after [t] L))
    (h₂ : (¬placed → Completable L) →
      Reads placed n (fun t => pre t ∧ t.kind ∉ kind :: others) (f false) L) :
    Reads placed n pre (accept (kind :: others) >>= f) L := by
  have completable (hn : ¬placed) : Completable L := by
    have ⟨he, hm⟩ := TokenKind.ne_of_isAskedFor (List.all_eq_true.mp hk kind (by simp))
    obtain ⟨t, rfl, ht⟩ := Token.exists_usable he hm
    exact .append (by simpa using ht) ((h₁ t (by simp) fun h => absurd h hn).completable hn)
  refine ⟨completable, fun s hs hle hpre => ?_⟩
  obtain ⟨t, rest, ht⟩ := List.exists_cons_of_ne_nil hs.ne_nil
  have h := accept_eq ht (TokenKind.end_notMem hk)
  by_cases ht' : t.kind ∈ kind :: others
  · rw [if_pos ht'] at h
    rw [bind_of_ok h]
    have hpast : (s.past 1).ahead = rest := ParseState.ahead_past_one ht
    have hlt := ParseState.remaining_past_one ht
    rw [ht] at hs
    have ⟨he, hm⟩ := TokenKind.ne_of_isAskedFor (List.all_eq_true.mp hk _ ht')
    refine Outcome.past (show s.ahead = [t] ++ rest from ht)
      (by simpa using hm) ?_
    refine (h₁ t ht' fun _ => hpre t (by simp [ht])).run (s.past 1) ?_
      (by omega) fun _ _ => trivial
    rw [hpast]
    exact hs.tail he
  · rw [if_neg ht'] at h
    rw [bind_of_ok h]
    refine (h₂ completable).run s hs hle fun u hu => ⟨hpre u hu, ?_⟩
    rw [ht] at hu
    cases hu
    exact ht'

/-! ## Repetition -/

/-- A loop reads any number of elements, and what follows it reads on. The test of the loop
takes `c` tokens when it succeeds: none, or the separator that it looks for. -/
theorem Reads.whileMore_bind {c : ℕ} {more : Parse Bool} {g : Token → Bool}
    {element : Parse α} {E : α → Language Token} {k : List α → Parse β}
    {L : β → Language Token}
    (hmore : ∀ s t rest, s.ahead = t :: rest →
      more s = if g t then (.ok true, s.past c) else (.ok false, s))
    (hE : ∀ s, Ended s.ahead → s.remaining ≤ n → (∀ t ∈ s.ahead.head?, g t = true) →
      Outcome placed E s (element (s.past c)))
    (hne : ∀ a, [] ∉ E a)
    (hk : ∀ as us, us ∈ (as.map E).prod →
      Reads placed (n - us.length) (fun t => g t = false) (k as) (after us L)) :
    Reads placed n pre (whileMore more element >>= k) L := by
  refine ⟨(hk [] [] (Language.nil_mem_one)).completable, fun s hs hle hpre => ?_⟩
  clear hpre
  induction n using Nat.strong_induction_on generalizing s k L with | _ n ih
  obtain ⟨t, rest, ht⟩ := List.exists_cons_of_ne_nil hs.ne_nil
  by_cases hg : g t = true
  · have hm : more s = (.ok true, s.past c) := by rw [hmore s t rest ht, if_pos hg]
    have hfirst := hE s hs hle (by simpa [ht] using hg)
    -- An element takes a token, so the loop goes round.
    have hpos {a : α} {us : List Token} (hu : us ∈ E a) : us.length ≠ 0 := fun h =>
      hne a (List.length_eq_zero_iff.mp h ▸ hu)
    have hlt : ∀ a s₂, element (s.past c) = (.ok a, s₂) → s₂.remaining < s.remaining := by
      intro a s₂ ha
      rw [ha] at hfirst
      obtain ⟨us, rest, h₁, -, rfl, hu, -⟩ := hfirst
      have := ParseState.remaining_past h₁
      have := hpos hu
      omega
    rw [whileMore_step hm hlt]
    refine Outcome.bind (p := fun s => element (s.past c)) hfirst (fun hn a us hu => ?_)
      fun a us rest h₁ h₂ hu => ?_
    · exact (hk [a] us (by simpa using hu)).completable hn
    · have := ParseState.remaining_past h₁
      have := hpos hu
      refine ih (n - us.length) (by omega) (fun s hs hle => hE s hs (by omega)) ?_
        _ ?_ (by omega)
      · intro as vs hv
        have h := hk (a :: as) (us ++ vs) (Language.append_mem_mul hu hv)
        exact (h.weaken (by simp [Nat.sub_sub]) fun _ _ => id).mono fun _ _ => by simp
      · rw [ParseState.ahead_past h₁]
        exact (h₁ ▸ hs).of_append h₂
  · have hm : more s = (.ok false, s) := by rw [hmore s t rest ht, if_neg hg]
    rw [whileMore_stop hm]
    exact (hk [] [] (Language.nil_mem_one)).run s hs hle (by simp [ht, hg])

/-- Elements are read with the separator between them. -/
theorem Reads.separatedBy {separator : TokenKind} {element : Parse α} {E : α → Language Token}
    (hk : separator.isAskedFor = true) (hE : Reads placed n (fun _ => True) element E) :
    Reads placed n pre (separatedBy separator element) (Rendering.separated separator E) := by
  have ⟨he, hm⟩ := TokenKind.ne_of_isAskedFor hk
  refine .bind (hE.weaken le_rfl fun _ _ _ => trivial) fun a us hu _ => ?_
  refine .whileMore_bind (c := 1) (g := fun t => t.kind = separator)
    (E := fun b => Rendering.mark separator * E b) ?_ ?_ ?_ fun as vs hv => .pure ?_
  · intro s t rest ht
    have h : TokenKind.endOfInput ∉ [separator] := by simpa using he.symm
    simpa using accept_eq ht h
  · intro s hs hle hg
    obtain ⟨t, rest, ht⟩ := List.exists_cons_of_ne_nil hs.ne_nil
    have hk : t.kind = separator := by simpa [ht] using hg
    have hpast : (s.past 1).ahead = rest := ParseState.ahead_past_one ht
    have hlt := ParseState.remaining_past_one ht
    rw [ht] at hs
    have mark : [t] ∈ Rendering.mark separator := ⟨t, hk, rfl⟩
    refine Outcome.past (show s.ahead = [t] ++ rest from ht) (by simpa [hk] using hm) ?_
    refine Outcome.mono ?_ fun a us hu => Language.append_mem_mul mark hu
    refine hE.run (s.past 1) (by rw [hpast]; exact hs.tail (hk ▸ he)) ?_ fun _ _ => trivial
    omega
  · rintro a ⟨_, ⟨t, -, rfl⟩, us, -, h⟩
    cases h
  · simpa [Rendering.separated] using Language.append_mem_mul hu hv

/-- Elements up to a token of a kind, which is taken. -/
theorem Reads.until {close : TokenKind} {element : Parse α} {E : α → Language Token}
    {k : List α → Parse β} {L : β → Language Token} (hclose : close.isAskedFor = true)
    (hE : Reads placed n (fun t => t.kind ≠ close) element E) (hne : ∀ a, [] ∉ E a)
    (hk : ∀ as us, us ∈ (as.map E).prod * Rendering.mark close →
      Reads placed (n - us.length) (fun _ => True) (k as) (after us L)) :
    Reads placed n pre (do
      let as ← whileMore (return !(← check close)) element
      let _ ← advance
      k as) L := by
  have hmore := (peeks_check close).bind_pure (! ·)
  refine .whileMore_bind (c := 0) (g := fun t => !t.kind = close) (E := E) ?_ ?_ hne ?_
  · exact fun s t rest => hmore.eq_ite
  · intro s hs hle hg
    exact hE.run s hs hle fun t ht => by simpa using hg t ht
  · intro as us hu
    refine .bind (reads_advance_kind (fun t _ h => by simpa using h) hclose)
      fun t vs hv _ => ?_
    obtain ⟨t, ⟨⟨hk', -⟩, rfl⟩, rfl⟩ := hv
    have h := hk as (us ++ [t]) (Language.append_mem_mul hu ⟨t, hk', rfl⟩)
    exact (h.weaken (by simp [Nat.sub_sub]) fun _ _ => id).mono fun _ _ => by simp

/-- A step that uses itself where fewer tokens are left. -/
theorem Reads.recursive {step : Parse α → Parse α} {L : α → Language Token}
    (hL : ¬placed → Completable L)
    (h : ∀ n q, Reads placed n (fun _ => True) q L →
      Reads placed (n + 1) (fun _ => True) (step q) L) :
    Reads placed n (fun _ => True) (recursive step) L := by
  refine ⟨hL, fun s hs hle hpre => ?_⟩
  clear hpre
  induction hr : s.remaining using Nat.strong_induction_on generalizing s with | _ m ih
  rw [recursive_eq]
  refine (h (m - 1) _ ⟨hL, fun t ht hlt _ => ?_⟩).run s hs (by omega) fun _ _ => trivial
  have hpos : 0 < t.remaining := ParseState.remaining_pos ht.ne_nil
  rw [if_pos (by omega)]
  exact ih t.remaining (by omega) t ht (by omega) rfl

/-- A numeral that denotes a number yields it and takes no token. -/
theorem Reads.ofNumeral {r : Except NumeralError α} {a : α} {L : α → Language Token}
    (hr : r = .ok a) (h : [] ∈ L a) : Reads placed n pre (ofNumeral r) L := by
  subst hr
  exact .pure h

end Parse

end ProtoSchema
