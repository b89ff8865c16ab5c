import ProtoSchema.Proofs.Parsing.Runs

/-!
# Coming round

`Comes p s q t` says that the run of `p` from the state `s` comes to the state `t` and runs
`q` there. Loops and productions that use themselves are gone into whether or not any tokens
have been taken since: a run in which one of them comes round without that ends as endless.
-/
namespace ProtoSchema.Parse

open Transfer

/-- In the run of the first step from the first state, the second step is come to in the
second state. -/
inductive Comes : {α β : Type} → Parse α → ParseState → Parse β → ParseState → Prop where
  | here {α : Type} (p : Parse α) (s : ParseState) : Comes p s p s
  | first {α β γ : Type} {p : Parse α} {f : α → Parse β} {q : Parse γ} {s t : ParseState} :
    Comes p s q t → Comes (p >>= f) s q t
  | next {α β γ : Type} {p : Parse α} {f : α → Parse β} {q : Parse γ}
      {s s' t : ParseState} {a : α} :
    Runs p s [] (.ok a, s') → Comes (f a) s' q t → Comes (p >>= f) s q t
  | within {α β : Type} {p : Parse α} {q : Parse β} {rule : Rule} {s t : ParseState} :
    Comes p { s with rules := rule :: s.rules } q t → Comes (within rule p) s q t
  | fewer {α β : Type} {p : Parse α} {q : Parse β} {s t u : ParseState} :
    Comes p t q u → Comes (fewer s p) t q u
  | whileMore {α β : Type} {more : Parse Bool} {p : Parse α} {q : Parse β}
      {s t : ParseState} :
    Comes (more >>= fun b => if b then p >>= fun a =>
        Transfer.fewer s (whileMore more p) >>= fun as =>
        Pure.pure (a :: as) else Pure.pure []) s q t →
    Comes (whileMore more p) s q t
  | recursive {α β : Type} {step : Parse α → Parse α} {q : Parse β} {s t : ParseState} :
    Comes (step (Transfer.fewer s (recursive step))) s q t → Comes (recursive step) s q t

/-- In the run of the step, what is entered at one state comes round at another: a loop that
has read an element there, or a production that uses itself. -/
inductive Repeats {α : Type} (p : Parse α) (s u v : ParseState) : Prop where
  | loop {β : Type} {more : Parse Bool} {element : Parse β} {t : ParseState} {b : β} :
    Comes p s (Parse.whileMore more element) u → Runs more u [] (.ok true, t) →
    Runs element t [] (.ok b, v) → Repeats p s u v
  | descent {β : Type} {step : Parse β → Parse β} : Comes p s (Parse.recursive step) u →
    Comes (step (Transfer.fewer u (Parse.recursive step))) u
      (Transfer.fewer u (Parse.recursive step)) v →
    Repeats p s u v

variable {α β : Type} {p : Parse α} {q : Parse β} {s t u v : ParseState}

/-- A run that yields something, as the first of two. -/
theorem Traced.runs (h : Traced p) {a : α} (ha : p s = (.ok a, t)) :
    Runs p s [] (.ok a, t) := by
  obtain ⟨entered, run⟩ := h s
  rw [ha] at run
  obtain rfl := run.entered_of_ok rfl
  exact run

/-- What a run comes to is behind its start: no end token lies between. -/
theorem Comes.passes (h : Comes p s q t) : s.Passes { t with rules := s.rules } := by
  induction h with
  | here _ s => exact .refl s
  | first _ ih | fewer _ ih | whileMore _ ih | recursive _ ih => exact ih
  | next run _ ih =>
    have before := run.passes
    have both := before.trans ih
    rwa [before.rules] at both
  | within _ ih => exact ⟨ih.tokens, rfl, ih.index_le, ih.passed⟩

/-- A run that comes to something endless is endless. -/
theorem Comes.endless (h : Comes p s q t) (hq : (q t).1 = .error .endless) :
    (p s).1 = .error .endless := by
  induction h with
  | here _ _ => exact hq
  | @first _ _ _ p f _ s _ _ ih =>
    have hp := ih hq
    rw [bind_eq]
    rcases hr : p s with ⟨e | a, s'⟩ <;> rw [hr] at hp
    · exact congrArg Except.error (Except.error.inj hp)
    · cases hp
  | next run _ ih =>
    rw [bind_of_ok run.eq]
    exact ih hq
  | @within _ _ p _ rule s _ _ ih =>
    have hp := ih hq
    rcases hr : p { s with rules := rule :: s.rules } with ⟨r, s'⟩
    rw [hr] at hp
    rw [within_eq hr]
    exact hp
  | fewer _ ih =>
    unfold Transfer.fewer
    split
    · exact ih hq
    · rfl
  | whileMore _ ih =>
    rw [whileMore_eq]
    exact ih hq
  | recursive _ ih =>
    rw [recursive_eq]
    exact ih hq

/-- What comes round is behind where it was entered. -/
theorem Repeats.passes (h : Repeats p s u v) :
    s.Passes { u with rules := s.rules } ∧ u.Passes { v with rules := u.rules } := by
  cases h with
  | loop hloop hmore helement =>
    have round := hmore.passes.trans helement.passes
    exact ⟨hloop.passes, ⟨round.tokens, rfl, round.index_le, round.passed⟩⟩
  | descent hstep hagain => exact ⟨hstep.passes, hagain.passes⟩

/-- In a run that is not endless, tokens have been taken whenever something comes round. -/
theorem Repeats.remaining_lt (h : Repeats p s u v) (hp : (p s).1 ≠ .error .endless) :
    v.remaining < u.remaining := by
  by_contra less
  refine hp ?_
  cases h with
  | loop hloop hmore helement =>
    refine hloop.endless ?_
    rw [Parse.whileMore, hmore.eq]
    simp only [helement.eq, dif_neg less]
  | descent hstep hagain =>
    refine hstep.endless ?_
    rw [recursive_eq]
    refine hagain.endless ?_
    rw [Transfer.fewer, if_neg less]

end ProtoSchema.Parse
