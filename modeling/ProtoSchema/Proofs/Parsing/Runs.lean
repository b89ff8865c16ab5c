import ProtoSchema.Proofs.Parsing.Transfer

/-!
# Runs

A run of a parsing step, made of the runs of its parts. `Runs p s entered r` says that `p`,
started in the state `s`, comes to `r`, and that `entered` are the rules it has entered and
not left where it fails, innermost first. A rule is left when what is read within it is over,
and on the way out of a failure all of them are; so what is said of them here is said of the
moment of the failure.

By induction on runs: only tokens that are not the end are passed, a run leaves the rules as
they were, and what a failure says of the next token and of the rules is so.
-/
namespace ProtoSchema

open Transfer

variable {α β : Type}

namespace Parse

/-- The run of a step from a state comes to a result. If it fails, the list holds the rules
that were entered and not left, innermost first. -/
inductive Runs : {α : Type} → Parse α → ParseState → List Rule →
    Except ParseFailure α × ParseState → Prop where
  | pure {α : Type} (a : α) (s : ParseState) : Runs (pure a) s [] (.ok a, s)
  | bind {α β : Type} {p : Parse α} {f : α → Parse β} {s s' : ParseState} {a : α}
      {entered : List Rule} {r : Except ParseFailure β × ParseState} :
    Runs p s [] (.ok a, s') → Runs (f a) s' entered r → Runs (p >>= f) s entered r
  | bind_fail {α β : Type} {p : Parse α} {f : α → Parse β} {s s' : ParseState}
      {e : ParseFailure} {entered : List Rule} :
    Runs p s entered (.error e, s') → Runs (p >>= f) s entered (.error e, s')
  | look {d : ℕ} {s : ParseState} {t : Token} :
    s.tokenAt? (s.index + d) = some t → Runs (look d) s [] (.ok t, s)
  | look_none {d : ℕ} {s : ParseState} :
    s.tokenAt? (s.index + d) = none → Runs (look d) s [] (.error .noToken, s)
  | take {s : ParseState} {t : Token} :
    s.tokenAt? s.index = some t → t.kind ≠ .endOfInput → Runs advance s [] (.ok t, s.past 1)
  | stay {s : ParseState} {t : Token} :
    s.tokenAt? s.index = some t → t.kind = .endOfInput → Runs advance s [] (.ok t, s)
  | advance_none {s : ParseState} :
    s.tokenAt? s.index = none → Runs advance s [] (.error .noToken, s)
  | reject {α : Type} {complaint : Complaint} {s : ParseState} {t : Token} :
    s.tokenAt? s.index = some t →
    Runs (reject complaint : Parse α) s []
      (.error (.unexpected ⟨complaint, s.rules.head?, t⟩), s)
  | reject_none {α : Type} {complaint : Complaint} {s : ParseState} :
    s.tokenAt? s.index = none →
    Runs (Parse.reject complaint : Parse α) s [] (.error .noToken, s)
  | numeral {α : Type} (r : Except NumeralError α) (s : ParseState) :
    Runs (ofNumeral r) s [] (r.mapError .numeral, s)
  | within {α : Type} {p : Parse α} {rule : Rule} {s s' : ParseState} {a : α} :
    Runs p { s with rules := rule :: s.rules } [] (.ok a, s') →
    Runs (within rule p) s [] (.ok a, { s' with rules := s'.rules.tail })
  | within_fail {α : Type} {p : Parse α} {rule : Rule} {s s' : ParseState}
      {e : ParseFailure} {entered : List Rule} :
    Runs p { s with rules := rule :: s.rules } entered (.error e, s') →
    Runs (Parse.within rule p) s (entered ++ [rule])
      (.error e, { s' with rules := s'.rules.tail })
  | fewer {α : Type} {p : Parse α} {s t : ParseState} {entered : List Rule}
      {r : Except ParseFailure α × ParseState} :
    t.remaining < s.remaining → Runs p t entered r → Runs (fewer s p) t entered r
  | endless {α : Type} {p : Parse α} {s t : ParseState} :
    ¬t.remaining < s.remaining → Runs (Transfer.fewer s p) t [] (.error .endless, t)
  | whileMore {α : Type} {more : Parse Bool} {p : Parse α} {s : ParseState}
      {entered : List Rule} {r : Except ParseFailure (List α) × ParseState} :
    Runs (more >>= fun b => if b then p >>= fun a =>
        Transfer.fewer s (whileMore more p) >>= fun as =>
        Pure.pure (a :: as) else Pure.pure []) s entered r →
    Runs (whileMore more p) s entered r
  | recursive {α : Type} {step : Parse α → Parse α} {s : ParseState} {entered : List Rule}
      {r : Except ParseFailure α × ParseState} :
    Runs (step (Transfer.fewer s (recursive step))) s entered r →
    Runs (recursive step) s entered r

end Parse

/-! ## Equations -/

namespace ParseState

theorem tokenAt?_of_lt {s : ParseState} (h : s.index < s.tokens.size) :
    s.tokenAt? s.index = s.tokens[s.index]? := by
  rw [tokenAt?, if_neg (by omega), if_pos (by omega), Int.toNat_natCast]

end ParseState

namespace Parse

/-- What is next, by the index. -/
theorem current_eq (s : ParseState) : current s = match s.tokenAt? s.index with
    | some t => (.ok t, s)
    | none => (.error .noToken, s) := by
  rcases h : s.tokenAt? s.index with _ | t <;> simp [current, look, h]

/-- What taking a token does, by the index. -/
theorem advance_run (s : ParseState) : advance s = match s.tokenAt? s.index with
    | some t => (.ok t, if t.kind = .endOfInput then s else s.past 1)
    | none => (.error .noToken, s) := by
  rw [advance, bind_eq, current_eq]
  rcases s.tokenAt? s.index with _ | t
  · rfl
  · by_cases h : t.kind = .endOfInput
    · simp [h, pure_eq]
    · simp [h, ParseState.past]

/-- What rejecting a token does, by the index. -/
theorem reject_run (complaint : Complaint) (s : ParseState) : (reject complaint : Parse α) s =
    match s.tokenAt? s.index with
    | some t => (.error (.unexpected ⟨complaint, s.rules.head?, t⟩), s)
    | none => (.error .noToken, s) := by
  cases h : s.tokenAt? s.index with
  | some t => exact bind_of_ok (by rw [current_eq, h])
  | none => exact bind_of_error (by rw [current_eq, h])

/-- A run comes to what the step comes to. -/
theorem Runs.eq {p : Parse α} {s : ParseState} {entered : List Rule}
    {r : Except ParseFailure α × ParseState} (h : Runs p s entered r) : p s = r := by
  induction h with
  | pure => rfl
  | bind _ _ ihp ihf => rw [bind_of_ok ihp, ihf]
  | bind_fail _ ih => rw [bind_of_error ih]
  | look h => rw [Parse.look, h]
  | look_none h => rw [Parse.look, h]
  | take h ht =>
    rw [advance_run, h]
    dsimp only
    rw [if_neg ht]
  | stay h ht =>
    rw [advance_run, h]
    dsimp only
    rw [if_pos ht]
  | advance_none h => rw [advance_run, h]
  | reject h => rw [reject_run, h]
  | reject_none h => rw [reject_run, h]
  | numeral => rfl
  | within _ ih => rw [within_eq ih]
  | within_fail _ ih => rw [within_eq ih]
  | fewer h _ ih => rw [Transfer.fewer, if_pos h, ih]
  | endless h => rw [Transfer.fewer, if_neg h]
  | whileMore _ ih => rw [whileMore_eq, ih]
  | recursive _ ih =>
    rw [recursive_eq]
    exact ih

end Parse

/-! ## What a run keeps -/

/-- The second state is behind the first: only tokens that are not the end lie between them,
and the list and the rules are the same. -/
structure ParseState.Passes (s s' : ParseState) : Prop where
  tokens : s'.tokens = s.tokens
  rules : s'.rules = s.rules
  index_le : s.index ≤ s'.index
  passed : ∀ i, s.index ≤ i → i < s'.index → ∀ t ∈ s.tokens[i]?, t.kind ≠ .endOfInput

namespace ParseState.Passes

variable {s s' s'' : ParseState}

theorem refl (s : ParseState) : s.Passes s where
  tokens := rfl
  rules := rfl
  index_le := Nat.le_refl _
  passed i hi hlt := by omega

theorem trans (h : s.Passes s') (h' : s'.Passes s'') : s.Passes s'' where
  tokens := h'.tokens.trans h.tokens
  rules := h'.rules.trans h.rules
  index_le := Nat.le_trans h.index_le h'.index_le
  passed i hi hlt := by
    by_cases hmid : i < s'.index
    · exact h.passed i hi hmid
    · intro t ht
      exact h'.passed i (by omega) hlt t (h.tokens ▸ ht)

/-- To take a token that is no end token goes on by one. -/
theorem one {t : Token} (h : s.tokenAt? s.index = some t) (ht : t.kind ≠ .endOfInput) :
    s.Passes (s.past 1) where
  tokens := rfl
  rules := rfl
  index_le := Nat.le_succ _
  passed i hi hlt u hu := by
    obtain rfl : i = s.index := by
      rw [past_index] at hlt
      omega
    have inside : s.index < s.tokens.size := (Array.getElem?_eq_some_iff.mp hu).1
    rw [tokenAt?_of_lt inside, hu] at h
    exact Option.some.inj h ▸ ht

/-- No end token is passed. -/
theorem index_le_of_end (h : s.Passes s') {k : ℕ} (hk : s.index ≤ k) {e : Token}
    (he : s.tokens[k]? = some e) (hend : e.kind = .endOfInput) : s'.index ≤ k := by
  by_contra hlt
  exact h.passed k hk (by omega) e he hend

end ParseState.Passes

namespace Parse

variable {p : Parse α} {s : ParseState} {entered : List Rule}
  {r : Except ParseFailure α × ParseState}

/-- Every run goes forward, over no end token, and keeps tokens and rules. -/
theorem Runs.passes (h : Runs p s entered r) : s.Passes r.2 := by
  induction h with
  | pure | look _ | look_none _ | stay _ _ | advance_none _ => exact .refl _
  | reject _ | reject_none _ | numeral | endless _ => exact .refl _
  | bind _ _ ihp ihf => exact ihp.trans ihf
  | bind_fail _ ih | fewer _ _ ih | whileMore _ ih | recursive _ ih => exact ih
  | take h ht => exact .one h ht
  | within _ ih | within_fail _ ih =>
    exact ⟨ih.tokens, congrArg List.tail ih.rules, ih.index_le, ih.passed⟩

/-- A failure names the next token, which has not been taken, and the innermost of the rules
that have been entered and not left. -/
theorem Runs.unexpected (h : Runs p s entered r) {e : SyntaxError}
    (he : r.1 = .error (.unexpected e)) :
    r.2.tokenAt? r.2.index = some e.actual ∧ e.rule = (entered ++ s.rules).head? := by
  induction h with
  | pure | look _ | look_none _ | stay _ _ | take _ _ | advance_none _ => cases he
  | reject_none _ | endless _ | within _ _ => cases he
  | bind hp _ _ ihf =>
    have := ihf he
    rwa [hp.passes.rules] at this
  | bind_fail _ ih =>
    cases he
    exact ih rfl
  | reject h =>
    cases he
    exact ⟨h, rfl⟩
  | numeral r => cases r <;> cases he
  | within_fail _ ih =>
    obtain ⟨hactual, hrule⟩ := ih he
    refine ⟨hactual, ?_⟩
    rw [hrule, List.append_assoc]
    rfl
  | fewer _ _ ih | whileMore _ ih | recursive _ ih => exact ih he

end Parse

/-! ## Steps that have runs -/

namespace Parse

/-- The step is made of steps whose runs are described, whatever state it is started in. -/
def Traced (p : Parse α) : Prop := ∀ s, ∃ entered, Runs p s entered (p s)

/-- A run is the run of its step, so the step has one. -/
theorem Runs.traced {p : Parse α} {s : ParseState} {entered : List Rule}
    {r : Except ParseFailure α × ParseState} (h : Runs p s entered r) :
    ∃ entered, Runs p s entered (p s) := ⟨entered, h.eq.symm ▸ h⟩

/-- A run that yields something has left all rules it entered. -/
theorem Runs.entered_of_ok {p : Parse α} {s : ParseState} {entered : List Rule}
    {r : Except ParseFailure α × ParseState} (h : Runs p s entered r) {a : α}
    (ha : r.1 = .ok a) : entered = [] := by
  induction h with
  | pure | look _ | look_none _ | stay _ _ | take _ _ | advance_none _ => rfl
  | reject _ | reject_none _ | numeral | endless _ | within _ _ => rfl
  | bind _ _ _ ih => exact ih ha
  | bind_fail _ _ | within_fail _ _ => cases ha
  | fewer _ _ ih | whileMore _ ih | recursive _ ih => exact ih ha

theorem Traced.pure (a : α) : Traced (pure a) := fun s => (Runs.pure a s).traced

/-- Two steps with a run each have one together. -/
theorem Traced.bind {p : Parse α} {f : α → Parse β} (hp : Traced p) (hf : ∀ a, Traced (f a)) :
    Traced (p >>= f) := by
  intro s
  obtain ⟨entered, h⟩ := hp s
  rcases hr : p s with ⟨e | a, s'⟩ <;> rw [hr] at h
  · exact h.bind_fail.traced
  · obtain rfl := h.entered_of_ok rfl
    obtain ⟨entered', h'⟩ := hf a s'
    exact (h.bind h').traced

theorem Traced.yield {p : Parse α} {f : α → β} (hp : Traced p) :
    Traced (p >>= fun a => Pure.pure (f a)) := hp.bind fun a => .pure (f a)

theorem Traced.map {p : Parse α} {f : α → β} (hp : Traced p) : Traced (f <$> p) := hp.yield

theorem Traced.ite {b : Prop} [Decidable b] {p q : Parse α} (hp : Traced p) (hq : Traced q) :
    Traced (if b then p else q) := by
  split_ifs
  · exact hp
  · exact hq

/-- A test chooses between two steps. -/
theorem Traced.test {q : Parse Bool} {k : Bool → Parse α} (hq : Traced q)
    (ht : Traced (k true)) (hf : Traced (k false)) : Traced (q >>= k) :=
  hq.bind fun b => match b with
    | true => ht
    | false => hf

theorem traced_look (d : ℕ) : Traced (look d) := by
  intro s
  cases h : s.tokenAt? (s.index + d) with
  | some t => exact (Runs.look h).traced
  | none => exact (Runs.look_none h).traced

theorem traced_current : Traced current := traced_look 0

theorem traced_advance : Traced advance := by
  intro s
  cases h : s.tokenAt? s.index with
  | none => exact (Runs.advance_none h).traced
  | some t =>
    by_cases ht : t.kind = .endOfInput
    · exact (Runs.stay h ht).traced
    · exact (Runs.take h ht).traced

theorem traced_reject (complaint : Complaint) : Traced (reject complaint : Parse α) := by
  intro s
  cases h : s.tokenAt? s.index with
  | some t => exact (Runs.reject h).traced
  | none => exact (Runs.reject_none h).traced

theorem traced_ofNumeral (r : Except NumeralError α) : Traced (ofNumeral r) :=
  fun s => (Runs.numeral r s).traced

/-- A rule that is entered is left when the step has yielded something, and is still entered
when it has failed. -/
theorem Traced.within {p : Parse α} {rule : Rule} (hp : Traced p) :
    Traced (within rule p) := by
  intro s
  obtain ⟨entered, h⟩ := hp { s with rules := rule :: s.rules }
  rcases hr : p { s with rules := rule :: s.rules } with ⟨e | a, s'⟩ <;> rw [hr] at h
  · exact h.within_fail.traced
  · obtain rfl := h.entered_of_ok rfl
    exact h.within.traced

/-- A step that is guarded needs runs only where fewer tokens are left. -/
theorem Traced.fewer {p : Parse α} {s : ParseState}
    (h : ∀ t : ParseState, t.remaining < s.remaining → ∃ entered, Runs p t entered (p t)) :
    Traced (fewer s p) := by
  intro t
  by_cases hlt : t.remaining < s.remaining
  · obtain ⟨entered, h⟩ := h t hlt
    exact (h.fewer hlt).traced
  · exact (Runs.endless hlt).traced

/-- A loop has a run, by induction on the tokens left: behind its guard it has one already. -/
theorem Traced.whileMore {more : Parse Bool} {p : Parse α} (hmore : Traced more)
    (hp : Traced p) : Traced (whileMore more p) := by
  intro s
  induction hr : s.remaining using Nat.strongRecOn generalizing s with | ind n ih
  have again : Traced (Transfer.fewer s (Parse.whileMore more p)) :=
    .fewer fun t hlt => ih _ (hr ▸ hlt) t rfl
  have once : Traced (more >>= fun b => if b then p >>= fun a =>
      Transfer.fewer s (Parse.whileMore more p) >>= fun as => Pure.pure (a :: as)
      else Pure.pure []) :=
    hmore.bind fun b => .ite (hp.bind fun a => again.yield) (.pure [])
  obtain ⟨entered, h⟩ := once s
  exact h.whileMore.traced

/-- So has a recursive step. -/
theorem Traced.recursive {step : Parse α → Parse α} (h : ∀ p, Traced p → Traced (step p)) :
    Traced (recursive step) := by
  intro s
  induction hr : s.remaining using Nat.strongRecOn generalizing s with | ind n ih
  have again : Traced (Transfer.fewer s (Parse.recursive step)) :=
    .fewer fun t hlt => ih _ (hr ▸ hlt) t rfl
  obtain ⟨entered, h⟩ := h _ again s
  exact h.recursive.traced

/-! ## Tokens -/

theorem traced_check (kind : TokenKind) : Traced (check kind) := traced_current.yield

theorem traced_checkWord (w : String) : Traced (checkWord w) := traced_current.yield

theorem traced_checkKeyword (w : String) : Traced (checkKeyword w) := traced_current.yield

theorem traced_atEnd : Traced atEnd := traced_current.yield

theorem traced_accept (kinds : List TokenKind) : Traced (accept kinds) := by
  induction kinds with
  | nil => exact .pure false
  | cons kind kinds ih => exact .test (traced_check kind) traced_advance.yield ih

theorem traced_consume (kind : TokenKind) (wanted : Expectation) :
    Traced (consume kind wanted) :=
  .test (traced_check kind) traced_advance (traced_reject _)

theorem traced_consumeMark (kind : TokenKind) (mark : String) :
    Traced (consumeMark kind mark) :=
  (traced_consume kind _).yield

theorem traced_consumeWord (w : String) : Traced (consumeWord w) :=
  .test (traced_checkWord w) traced_advance (traced_reject _)

theorem traced_consumeName (wanted : Expectation) : Traced (consumeName wanted) :=
  traced_current.bind fun _ => .ite (traced_reject _) traced_advance.yield

theorem Traced.separatedBy {separator : TokenKind} {p : Parse α} (hp : Traced p) :
    Traced (separatedBy separator p) :=
  hp.bind fun _ => ((traced_accept _).whileMore hp).yield

end Parse

end ProtoSchema
