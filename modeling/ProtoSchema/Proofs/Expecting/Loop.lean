import ProtoSchema.Proofs.Expecting.Token

/-!
# Loops and the tokens they expect

A loop is compared round by round. Behind it the next token is one at which it does not go
round again, and what is expected there may be put in the words of the loop: a separator, or
the mark that closes it.
-/
namespace ProtoSchema.Fork

open Parse Transfer

variable {α β : Type} {pre firm : Token → Prop}

variable {w : Fork} {n : ℕ} {s : ParseState} {p q : Parse α}

/-! ## Repetition -/

/-- A loop and what comes behind it, by one round. -/
theorem loop_eq (more : Parse Bool) (p : Parse α) (k : List α → Parse β) (s : ParseState) :
    (whileMore more p >>= k) s = (more >>= fun b => if b then p >>= fun a =>
      fewer s (whileMore more p >>= fun as => k (a :: as)) else k []) s := by
  rw [bind_eq, whileMore_eq]
  rcases hm : more s with ⟨e | b, s₁⟩
  · rw [bind_of_error hm, bind_of_error hm]
  rw [bind_of_ok hm, bind_of_ok hm]
  cases b with
  | false => rfl
  | true =>
    simp only [if_true]
    rcases hp : p s₁ with ⟨e | a, s₂⟩
    · rw [bind_of_error hp, bind_of_error hp]
    rw [bind_of_ok hp, bind_of_ok hp, bind_eq, fewer, fewer]
    by_cases hr : s₂.remaining < s.remaining
    · rw [if_pos hr, if_pos hr, bind_eq]
      rcases whileMore more p s₂ with ⟨_ | _, _⟩ <;> rfl
    · rw [if_neg hr, if_neg hr]

/-- A step that is run only where fewer tokens are left is run only further on. -/
theorem fewer_on {tokens : Array Token} (s : ParseState) {t : ParseState}
    (ht : Ended (t.on tokens).ahead) (p : Parse α) : fewer (s.on tokens) p (t.on tokens) =
      if s.index < t.index then p (t.on tokens) else fail .endless (t.on tokens) := by
  have inside : 0 < (t.on tokens).remaining := ParseState.remaining_pos ht.ne_nil
  have same : (t.on tokens).remaining < (s.on tokens).remaining ↔ s.index < t.index := by
    simp only [ParseState.remaining, ParseState.on_tokens, ParseState.on_index] at inside ⊢
    omega
  rw [fewer]
  simp only [same]
  rfl

/-- The lists are compared at their tokens only. -/
theorem SincereAt.of_inside (h : s.index < w.source.size + w.target.size →
    w.SincereAt pre firm p q s) : w.SincereAt pre firm p q s := by
  have inside {tokens : Array Token} {t : Token} {rest : List Token}
      (ht : (s.on tokens).ahead = t :: rest) : s.index < tokens.size := by
    have := (s.on tokens).length_ahead
    rw [ht, ParseState.remaining, List.length_cons, ParseState.on_tokens,
      ParseState.on_index] at this
    omega
  refine ⟨fun t rest ht => (h ?_).left t rest ht, fun t rest ht => (h ?_).right t rest ht, ?_⟩
  · have := inside ht
    omega
  · have := inside ht
    omega
  · intro hle hs t u rest rest' ht
    refine (h ?_).meets hle hs t u rest rest' ht
    have := inside ht
    omega

/-- A guarded step is compared where it is entered: with fewer tokens left. -/
theorem sincere_fewer {s : ParseState} (h : ∀ t, s.index < t.index → n ≤ t.index →
    w.SincereAt ⊤ ⊥ p q t) :
      w.Sincere n ⊤ ⊥ (fewer (s.on w.source) p) (fewer (s.on w.target) q) := by
  intro t hn
  by_cases hlt : s.index < t.index
  · exact (h t hlt hn).congr (fun ht => (fewer_on s ht p).trans (if_pos hlt))
      fun ht => (fewer_on s ht q).trans (if_pos hlt)
  · have failed : w.SincereAt ⊤ ⊥ (fail .endless : Parse α) (fail .endless) t :=
      sincere_fail (fun _ => ParseFailure.noConfusion) t hn
    exact failed.congr (fun ht => (fewer_on s ht p).trans (if_neg hlt))
      fun ht => (fewer_on s ht q).trans (if_neg hlt)

/-- A loop, where one round and what comes behind the loop are compared. `P` says what comes
behind it, whatever has been read in the rounds before. -/
theorem Sincere.loop (P : (List α → Parse β) → (List α → Parse β) → Prop)
    {more more' : Parse Bool} {k k' : List α → Parse β}
    (hP : ∀ k k' a b, P k k' → P (fun as => k (a :: as)) fun bs => k' (b :: bs))
    (h : ∀ k k' (R R' : α → Parse β), P k k' → (∀ a b, w.Sincere n ⊤ ⊥ (R a) (R' b)) →
      w.Sincere n ⊤ ⊥ (more >>= fun b => if b then p >>= R else k [])
        (more' >>= fun b => if b then q >>= R' else k' []))
    (hk : P k k') : w.Sincere n ⊤ ⊥ (whileMore more p >>= k) (whileMore more' q >>= k') := by
  intro s hn
  induction hm : w.source.size + w.target.size - s.index
    using Nat.strongRecOn generalizing s k k' with
    | ind m ih
  refine .of_inside fun inside => ?_
  refine ((h k k' _ _ hk fun a b => sincere_fewer fun t hlt ht => ?_) s hn).congr
    (fun _ => loop_eq ..) fun _ => loop_eq ..
  exact ih _ (by omega) (hP k k' a b hk) t ht rfl

/-- A loop behind which the next token is as `pre` says. -/
theorem Sincere.loopTo {more more' : Parse Bool} {k k' : List α → Parse β}
    (h : ∀ (k k' : List α → Parse β) (R R' : α → Parse β),
      (∀ as bs, w.Sincere n pre firm (k as) (k' bs)) → (∀ a b, w.Sincere n ⊤ ⊥ (R a) (R' b)) →
      w.Sincere n ⊤ ⊥ (more >>= fun b => if b then p >>= R else k [])
        (more' >>= fun b => if b then q >>= R' else k' []))
    (hk : ∀ as bs, w.Sincere n pre firm (k as) (k' bs)) :
    w.Sincere n ⊤ ⊥ (whileMore more p >>= k) (whileMore more' q >>= k') :=
  .loop (fun k k' => ∀ as bs, w.Sincere n pre firm (k as) (k' bs))
    (fun _ _ a b hk as bs => hk (a :: as) (b :: bs)) h hk

/-- Elements as long as the next token is so. -/
theorem Sincere.whileMore {more : Parse Bool} {g : Token → Bool} (hmore : Peeks more g)
    (h : w.Sincere n (g · = true) ⊤ p q) :
    w.Sincere n ⊤ ⊥ (whileMore more p) (Parse.whileMore more q) := by
  have whole : w.Sincere n ⊤ ⊥ (Parse.whileMore more p >>= Pure.pure)
      (Parse.whileMore more q >>= Pure.pure) := by
    refine .loopTo (fun k k' R R' hk hR => ?_) fun as bs =>
      show w.Sincere n ⊤ ⊥ _ _ from .pure as bs
    exact .test hmore (fun _ _ => Iff.rfl) ((h.restrict fun _ _ => And.right).bind hR)
      (hk [] []).loose
  rwa [bind_pure, bind_pure] at whole

/-- Elements with separators between them, and what comes behind the last. -/
theorem Sincere.separatedBy_bind {separator : TokenKind} {k k' : List α → Parse β}
    (hsep : separator ≠ .endOfInput) (h : w.Sincere n pre firm p q) (h' : w.Sincere n ⊤ ⊥ p q)
    (hk : ∀ as bs, w.Sincere n (·.kind ≠ separator) ⊥ (k as) (k' bs)) :
    w.Sincere n pre firm (separatedBy separator p >>= k)
      (separatedBy separator q >>= k') := by
  rw [separatedBy, separatedBy, bind_assoc, bind_assoc]
  refine h.bind fun a b => ?_
  rw [bind_assoc, bind_assoc]
  refine .loopTo (fun k k' R R' hk hR => ?_) fun as bs => hk (a :: as) (b :: bs)
  refine .accept (by simpa using hsep.symm) ?_
    ((hk [] []).restrict fun t _ ht => by simpa using ht.2)
  exact (h'.bind hR).further (Nat.le_succ n)

/-- Elements are compared one by one, and a separator that comes next is taken. -/
theorem Sincere.separatedBy {separator : TokenKind} (hsep : separator ≠ .endOfInput)
    (h : w.Sincere n pre firm p q) (h' : w.Sincere n ⊤ ⊥ p q) :
    w.Sincere n pre firm (separatedBy separator p) (Parse.separatedBy separator q) := by
  have whole : w.Sincere n pre firm (Parse.separatedBy separator p >>= Pure.pure)
      (Parse.separatedBy separator q >>= Pure.pure) :=
    .separatedBy_bind hsep h h' fun as bs => .pure as bs
  rwa [bind_pure, bind_pure] at whole

/-- Elements up to a token that is taken behind them. -/
theorem Sincere.until {close : TokenKind} {k k' : List α → Parse β}
    (h : w.Sincere n (·.kind ≠ close) ⊥ p q)
    (hk : ∀ as bs, w.Sincere n (·.kind = close) ⊤ (k as) (k' bs)) :
    w.Sincere n ⊤ ⊥ (Parse.whileMore (return !(← Parse.check close)) p >>= k)
      (Parse.whileMore (return !(← Parse.check close)) q >>= k') := by
  refine .loopTo (fun k k' R R' hk hR => ?_) hk
  refine .testNot ((peeks_check close).bind_pure (! ·)) (fun t _ => ?_)
    ((h.restrict fun _ _ => And.right).bind hR)
    ((hk [] []).restrict fun _ _ ht => not_not.mp ht.2)
  rw [Bool.not_eq_true', decide_eq_false_iff_not]

/-- Elements up to the end, where the step fails. -/
theorem Sincere.untilEnd {k k' : List α → Parse β}
    (h : w.Sincere n (·.kind ≠ .endOfInput) firm p q) (hk : ∀ as, k as = expect [])
    (hk' : ∀ bs, k' bs = expect []) :
    w.Sincere n ⊤ ⊥ (Parse.whileMore (return !(← atEnd)) p >>= k)
      (Parse.whileMore (return !(← atEnd)) q >>= k') := by
  refine .loop (fun k k' => (∀ as, k as = expect []) ∧ ∀ bs, k' bs = expect [])
    (fun _ _ a b hk => ⟨fun as => hk.1 (a :: as), fun bs => hk.2 (b :: bs)⟩)
    (fun k k' R R' hk hR => ?_) ⟨hk, hk'⟩
  have round : w.Sincere n (fun t => True ∧ t.kind ≠ .endOfInput) firm (p >>= R) (q >>= R') :=
    (h.bind hR).restrict fun _ _ => And.right
  rw [bind_assoc, bind_assoc]
  exact .unlessEnd (fun _ _ _ hx => absurd hx List.not_mem_nil) (hk.1 []) (hk.2 []) round

/-- A step that uses itself behind the place where it starts. -/
theorem Sincere.recursive {step : Parse α → Parse α}
    (h : ∀ m p q, w.Sincere (m + 1) ⊤ firm p q → w.Sincere m ⊤ firm (step p) (step q)) :
    w.Sincere n ⊤ firm (recursive step) (recursive step) := by
  intro s hn
  clear hn
  induction hm : w.source.size + w.target.size - s.index
    using Nat.strongRecOn generalizing s with
    | ind m ih
  refine .of_inside fun inside => ?_
  refine (h s.index _ _ (fun t hlt => ?_) s le_rfl).congr (fun _ => recursive_eq ..)
    fun _ => recursive_eq ..
  refine (ih _ (by omega) t rfl).congr (fun ht => ?_) fun ht => ?_
  · exact (fewer_on s ht _).trans (if_pos hlt)
  · exact (fewer_on s ht _).trans (if_pos hlt)

end ProtoSchema.Fork
