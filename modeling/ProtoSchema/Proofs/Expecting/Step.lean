import Mathlib.Order.BooleanAlgebra.Basic
import ProtoSchema.Proofs.Expecting.Fork

/-!
# Steps and the tokens they expect

`w.Sincere n pre firm p q` compares `p` on the first list with `q` on the second, from places
at `n` or behind it where the next token is as `pre` says. If the first run stops at the place
where the lists part, or in front of it, then both stop there and yield something, or the
second goes on behind that place, or the first run has failed; and if it failed at the place,
nothing that it expected fits the other token. Both steps go forward, and take the next token
if it is as `firm` says.
-/
namespace ProtoSchema

open Parse Transfer

variable {α β : Type} {pre firm : Token → Prop}

/-! ## Going forward -/

/-- The step goes forward, whatever it comes to, and takes the next token if that is as `firm`
says. -/
def Parse.Forward (pre firm : Token → Prop) (p : Parse α) (s : ParseState) : Prop :=
  ∀ t rest, s.ahead = t :: rest → Ended s.ahead → pre t →
    ∃ l, (firm t → 0 < l) ∧ (p s).2 = s.past l ∧ Ended (s.past l).ahead

namespace Parse

/-- Three steps one behind the other, in either bracketing. -/
theorem bind_assoc {γ : Type} (p : Parse α) (F : α → Parse β) (G : β → Parse γ) :
    p >>= F >>= G = p >>= fun a => F a >>= G := by
  funext s
  rw [bind_eq, bind_eq, bind_eq]
  rcases p s with ⟨_ | _, _⟩ <;> rfl

/-- Behind a rejected token nothing is read. -/
theorem reject_bind (complaint : Complaint) (F : α → Parse β) :
    (reject complaint : Parse α) >>= F = reject complaint :=
  (bind_assoc current _ F).trans rfl

/-- Behind a token that is rejected nothing is done. -/
theorem expect_bind (xs : List Expectation) (F : α → Parse β) :
    (expect xs : Parse α) >>= F = expect xs := reject_bind _ F

/-- The conditions on the next token may be strengthened. -/
theorem Forward.mono {pre' firm' : Token → Prop} {p : Parse α} {s : ParseState}
    (h : Forward pre firm p s) (hpre : ∀ t, t.WellMade → pre' t → pre t)
    (hfirm : ∀ t, t.WellMade → pre' t → firm' t → firm t) : Forward pre' firm' p s := by
  intro t rest ht hs hp
  have made := (ht ▸ hs).wellMade
  obtain ⟨l, hl, hrest⟩ := h t rest ht hs (hpre t made hp)
  exact ⟨l, fun h => hl (hfirm t made hp h), hrest⟩

/-- A step that takes nothing goes nowhere. -/
theorem Forward.stay {p : Parse α} {s : ParseState} (h : (p s).2 = s) : Forward pre ⊥ p s :=
  fun _ _ _ hs _ => ⟨0, False.elim, h, hs⟩

theorem Forward.index_le {p : Parse α} {s : ParseState} (h : Forward ⊤ ⊥ p s)
    (hs : Ended s.ahead) : s.index ≤ (p s).2.index := by
  obtain ⟨t, rest, ht⟩ := List.exists_cons_of_ne_nil hs.ne_nil
  obtain ⟨l, -, hl, -⟩ := h t rest ht hs trivial
  rw [hl]
  exact Nat.le_add_right ..

/-- A second step does not go back. -/
theorem Forward.bind {p : Parse α} {F : α → Parse β} {s : ParseState}
    (h : Forward pre firm p s) (hF : ∀ a l, Forward ⊤ ⊥ (F a) (s.past l)) :
    Forward pre firm (p >>= F) s := by
  intro t rest ht hs hpre
  obtain ⟨l, hfirm, hl, hs'⟩ := h t rest ht hs hpre
  rcases hp : p s with ⟨e | a, s₁⟩ <;> rw [hp] at hl
  · rw [bind_of_error hp]
    exact ⟨l, hfirm, hl, hs'⟩
  · obtain rfl : s₁ = s.past l := hl
    obtain ⟨u, rest', hu⟩ := List.exists_cons_of_ne_nil hs'.ne_nil
    obtain ⟨m, -, hm, hs''⟩ := hF a l u rest' hu hs' trivial
    rw [ParseState.past_past] at hm hs''
    rw [bind_of_ok hp]
    exact ⟨l + m, fun h => Nat.add_pos_left (hfirm h) m, hm, hs''⟩

theorem within_run (rule : Rule) (p : Parse α) (s : ParseState) : within rule p s =
    ((p { s with rules := rule :: s.rules }).1,
      { (p { s with rules := rule :: s.rules }).2 with
        rules := (p { s with rules := rule :: s.rules }).2.rules.tail }) := rfl

theorem Forward.within {p : Parse α} {s : ParseState} {rule : Rule}
    (h : Forward pre firm p { s with rules := rule :: s.rules }) :
    Forward pre firm (within rule p) s := by
  intro t rest ht hs hpre
  obtain ⟨l, hfirm, hl, hs'⟩ := h t rest ht hs hpre
  refine ⟨l, hfirm, ?_, hs'⟩
  rw [within_run]
  simp only [hl]
  rfl

/-! ## Choosing -/

/-- The next token chooses between two steps. -/
def Chooses (g : Token → Bool) (p p₁ p₂ : Parse α) : Prop :=
  ∀ (s : ParseState) (t : Token) (rest : List Token), s.ahead = t :: rest →
    p s = if g t then p₁ s else p₂ s

variable {g : Token → Bool} {p p₁ p₂ : Parse α}

/-- A look at the next token chooses between what is done for either answer. -/
theorem Peeks.chooses {q : Parse Bool} (h : Peeks q g) (F : Bool → Parse α) :
    Chooses g (q >>= F) (F true) (F false) := by
  intro s t rest hs
  rw [bind_of_ok (h s t rest hs)]
  cases g t <;> rfl

/-- Between a step and itself, anything chooses. -/
theorem chooses_self (g : Token → Bool) (p : Parse α) : Chooses g p p p :=
  fun _ _ _ _ => (ite_self _).symm

/-- The opposite test chooses the other way round. -/
theorem Chooses.not (h : Chooses g p p₁ p₂) : Chooses (fun t => !g t) p p₂ p₁ := by
  intro s t rest hs
  rw [h s t rest hs]
  cases hg : g t <;> simp [hg]

/-- Whether a token is accepted is told by its kind. -/
theorem chooses_accept {kinds : List TokenKind} (hk : .endOfInput ∉ kinds)
    (F : Bool → Parse α) : Chooses (fun t => decide (t.kind ∈ kinds)) (accept kinds >>= F)
      (advance >>= fun _ => F true)
      (F false) := by
  intro s t rest hs
  have run := accept_eq hs hk
  by_cases hmem : t.kind ∈ kinds
  · rw [if_pos hmem] at run
    have taken := advance_eq hs fun h => hk (h ▸ hmem)
    rw [bind_of_ok run, if_pos (decide_eq_true hmem), bind_of_ok taken]
  · rw [if_neg hmem] at run
    rw [bind_of_ok run, if_neg (by simpa using hmem)]

theorem Chooses.forward {s : ParseState} (h : Chooses g p p₁ p₂)
    (ht : Forward (fun t => pre t ∧ g t = true) firm p₁ s)
    (hf : Forward (fun t => pre t ∧ g t = false) firm p₂ s) : Forward pre firm p s := by
  intro t rest hs hend hpre
  rw [h s t rest hs]
  cases hg : g t with
  | false => exact hf t rest hs hend ⟨hpre, hg⟩
  | true => exact ht t rest hs hend ⟨hpre, hg⟩

end Parse

namespace Fork

variable {w : Fork} {n m : ℕ} {s : ParseState} {p q : Parse α} {F G : α → Parse β}

/-! ## The comparison -/

/-- The comparison from one place on. -/
structure SincereAt (w : Fork) (pre firm : Token → Prop) (p q : Parse α) (s : ParseState) :
    Prop where
  left : Forward pre firm p (s.on w.source)
  right : Forward pre firm q (s.on w.target)
  meets : s.index ≤ w.place → Ended (s.on w.source).ahead → ∀ t u rest rest',
    (s.on w.source).ahead = t :: rest → (s.on w.target).ahead = u :: rest' → pre t → pre u →
    (p (s.on w.source)).2.index ≤ w.place → w.Meets (p (s.on w.source)) (q (s.on w.target))

/-- The comparison from every place at `n` or behind it. -/
def Sincere (w : Fork) (n : ℕ) (pre firm : Token → Prop) (p q : Parse α) : Prop :=
  ∀ s : ParseState, n ≤ s.index → w.SincereAt pre firm p q s

/-- Steps that come to the same there are sincere alike. -/
theorem SincereAt.congr {p' q' : Parse α} (h : w.SincereAt pre firm p' q' s)
    (hp : Ended (s.on w.source).ahead → p (s.on w.source) = p' (s.on w.source))
    (hq : Ended (s.on w.target).ahead → q (s.on w.target) = q' (s.on w.target)) :
    w.SincereAt pre firm p q s where
  left t rest ht hs := by
    rw [hp hs]
    exact h.left t rest ht hs
  right t rest ht hs := by
    rw [hq hs]
    exact h.right t rest ht hs
  meets hle hs := by
    rw [hp hs, hq (w.ended_target hle)]
    exact h.meets hle hs

theorem SincereAt.mono {pre' firm' : Token → Prop} (h : w.SincereAt pre firm p q s)
    (hpre : ∀ t, t.WellMade → pre' t → pre t)
    (hfirm : ∀ t, t.WellMade → pre' t → firm' t → firm t) : w.SincereAt pre' firm' p q s where
  left := h.left.mono hpre hfirm
  right := h.right.mono hpre hfirm
  meets hle hs t u rest rest' ht hu hpt hpu :=
    h.meets hle hs t u rest rest' ht hu (hpre t (ht ▸ hs).wellMade hpt)
      (hpre u (hu ▸ w.ended_target hle).wellMade hpu)

/-- The condition on the next token may be strengthened, and the place be moved on. -/
theorem Sincere.mono {pre' firm' : Token → Prop} (h : w.Sincere n pre firm p q) (hn : n ≤ m)
    (hpre : ∀ t, t.WellMade → pre' t → pre t)
    (hfirm : ∀ t, t.WellMade → pre' t → firm' t → firm t) : w.Sincere m pre' firm' p q :=
  fun s hs => (h s (hn.trans hs)).mono hpre hfirm

theorem Sincere.further (h : w.Sincere n pre firm p q) (hn : n ≤ m) :
    w.Sincere m pre firm p q :=
  fun s hs => h s (hn.trans hs)

/-- The condition on the next token may be strengthened. -/
theorem Sincere.restrict {pre' : Token → Prop} (h : w.Sincere n pre firm p q)
    (hpre : ∀ t, t.WellMade → pre' t → pre t) : w.Sincere n pre' firm p q :=
  h.mono le_rfl hpre fun _ _ _ => id

/-- That a step takes certain tokens may be forgotten. -/
theorem SincereAt.drop (h : w.SincereAt pre firm p q s) : w.SincereAt pre ⊥ p q s :=
  h.mono (fun _ _ => id) fun _ _ _ => False.elim

/-- Nothing is known of the next token. -/
theorem Sincere.loose (h : w.Sincere n ⊤ firm p q) : w.Sincere n pre ⊥ p q :=
  h.mono le_rfl (fun _ _ _ => trivial) fun _ _ _ => False.elim

/-- Every next token is one that the step takes. -/
theorem Sincere.takes (h : w.Sincere n ⊤ firm p q) (hpre : ∀ t, pre t → firm t) :
    w.Sincere n pre ⊤ p q :=
  h.mono le_rfl (fun _ _ _ => trivial) fun t _ ht _ => hpre t ht

/-- No next token is as `pre` says. -/
theorem Sincere.of_not (h : ∀ t, t.WellMade → ¬pre t) : w.Sincere n pre firm p q :=
  fun _ _ => {
    left := fun t _ ht hs hpre => absurd hpre (h t (ht ▸ hs).wellMade)
    right := fun t _ ht hs hpre => absurd hpre (h t (ht ▸ hs).wellMade)
    meets := fun _ hs t _ _ _ ht _ hpre => absurd hpre (h t (ht ▸ hs).wellMade) }

/-! ## Sequence -/

/-- A step that takes nothing rejects nothing. -/
theorem Sincere.pure (a b : α) : w.Sincere n pre ⊥ (Pure.pure a : Parse α) (Pure.pure b) :=
  fun _ _ => {
    left := .stay rfl
    right := .stay rfl
    meets := fun _ _ _ _ _ _ _ _ _ _ _ => .on rfl rfl }

/-- If the lists part within the first step, that one tells; if behind it, the second does. -/
theorem SincereAt.bind (h : w.SincereAt pre firm p q s)
    (hF : ∀ a b, w.Sincere s.index ⊤ ⊥ (F a) (G b)) :
    w.SincereAt pre firm (p >>= F) (q >>= G) s where
  left := h.left.bind fun a l => (hF a a (s.past l) (Nat.le_add_right ..)).left
  right := h.right.bind fun b l => (hF b b (s.past l) (Nat.le_add_right ..)).right
  meets hle hs t u rest rest' ht hu hpt hpu hstop := by
    obtain ⟨l, -, hl, hs'⟩ := h.left t rest ht hs hpt
    obtain ⟨m, -, hm, ht'⟩ := h.right u rest' hu (w.ended_target hle) hpu
    -- the second run goes on from where its first part has stopped
    have onward : (q (s.on w.target)).2.index ≤ ((q >>= G) (s.on w.target)).2.index := by
      rcases hq : q (s.on w.target) with ⟨e | b, s₂⟩
      · rw [bind_of_error hq]
      · rw [hq] at hm
        obtain rfl : s₂ = (s.on w.target).past m := hm
        rw [bind_of_ok hq]
        exact (hF b b (s.past m) (Nat.le_add_right ..)).right.index_le ht'
    rcases hp : p (s.on w.source) with ⟨e | a, s₁⟩ <;> rw [hp] at hl
    · rw [bind_of_error hp] at hstop ⊢
      cases h.meets hle hs t u rest rest' ht hu hpt hpu (by rw [hp]; exact hstop) with
      | on ha =>
        rw [hp] at ha
        cases ha
      | passed hpass => exact .passed (hpass.trans_le onward)
      | unfit he hfit =>
        rw [hp] at he hfit
        obtain rfl := Except.error.inj he
        exact .unfit rfl hfit
    · obtain rfl : s₁ = (s.on w.source).past l := hl
      have next := hF a a (s.past l) (Nat.le_add_right ..)
      rw [bind_of_ok hp] at hstop ⊢
      have hle' : (s.past l).index ≤ w.place := (next.left.index_le hs').trans hstop
      cases h.meets hle hs t u rest rest' ht hu hpt hpu (by rw [hp]; exact hle') with
      | @on _ b _ hb =>
        rw [hp] at hb
        rw [bind_of_ok hb]
        obtain ⟨t', rest₁, ht₁⟩ := List.exists_cons_of_ne_nil hs'.ne_nil
        obtain ⟨u', rest₂, hu₁⟩ := List.exists_cons_of_ne_nil (w.ended_target hle').ne_nil
        exact (hF a b (s.past l) (Nat.le_add_right ..)).meets hle' hs' t' u' rest₁ rest₂
          ht₁ hu₁ trivial
          trivial hstop
      | passed hpass => exact .passed (hpass.trans_le onward)
      | unfit he =>
        rw [hp] at he
        cases he

theorem Sincere.bind (h : w.Sincere n pre firm p q)
    (hF : ∀ a b, w.Sincere n ⊤ ⊥ (F a) (G b)) : w.Sincere n pre firm (p >>= F) (q >>= G) :=
  fun s hs => (h s hs).bind fun a b t ht => hF a b t (hs.trans ht)

/-- The last of several steps. -/
theorem Sincere.yield {f g : α → β} (h : w.Sincere n pre firm p q) :
    w.Sincere n pre firm (p >>= fun a => Pure.pure (f a)) (q >>= fun a => Pure.pure (g a)) :=
  h.bind fun a b => .pure (f a) (g b)

/-- A rule under way changes neither what is taken nor what is expected. -/
theorem Sincere.within {rule : Rule} (h : w.Sincere n pre firm p q) :
    w.Sincere n pre firm (within rule p) (within rule q) := by
  intro s hn
  have inner := h { s with rules := rule :: s.rules } hn
  refine ⟨inner.left.within, inner.right.within,
    fun hle hs t u rest rest' ht hu hpt hpu hstop => ?_⟩
  cases inner.meets hle hs t u rest rest' ht hu hpt hpu hstop with
  | @on _ b ha hb => exact .on (b := b) ha (within_eq (s := s.on w.target) hb)
  | passed h => exact .passed h
  | unfit he h => exact .unfit he h

/-! ## Choice -/

/-- The next token chooses between two steps, of which the first takes it. -/
theorem SincereAt.choose {g : Token → Bool} {p₁ p₂ q₁ q₂ : Parse α} (hp : Chooses g p p₁ p₂)
    (hq : Chooses g q q₁ q₂) (ht : w.SincereAt (fun t => pre t ∧ g t = true) ⊤ p₁ q₁ s)
    (hf : w.SincereAt (fun t => pre t ∧ g t = false) firm p₂ q₂ s) :
    w.SincereAt pre firm p q s := by
  have left : Forward (fun t => pre t ∧ g t = true) firm p₁ (s.on w.source) :=
    ht.left.mono (fun _ _ => id) fun _ _ _ _ => trivial
  have right : Forward (fun t => pre t ∧ g t = true) firm q₁ (s.on w.target) :=
    ht.right.mono (fun _ _ => id) fun _ _ _ _ => trivial
  refine ⟨hp.forward left hf.left, hq.forward right hf.right, ?_⟩
  intro hle hs t u rest rest' htok hutok hpt hpu hstop
  rw [hp _ t rest htok] at hstop ⊢
  rw [hq _ u rest' hutok]
  -- only at the place can the tokens differ, and there a run that takes its own goes on
  cases hgt : g t with
  | false =>
    rw [hgt] at hstop
    cases hgu : g u with
    | false => exact hf.meets hle hs t u rest rest' htok hutok ⟨hpt, hgt⟩ ⟨hpu, hgu⟩ hstop
    | true =>
      obtain ⟨l, hl, hrun, -⟩ := ht.right u rest' hutok (w.ended_target hle) ⟨hpu, hgu⟩
      refine .passed ?_
      rw [if_pos rfl, hrun]
      rcases next_cases hle htok hutok with ⟨-, rfl⟩ | ⟨hplace, -⟩
      · rw [hgt] at hgu
        cases hgu
      · have := hl trivial
        simp only [ParseState.past_index, ParseState.on_index]
        omega
  | true =>
    rw [hgt] at hstop
    cases hgu : g u with
    | true => exact ht.meets hle hs t u rest rest' htok hutok ⟨hpt, hgt⟩ ⟨hpu, hgu⟩ hstop
    | false =>
      obtain ⟨l, hl, hrun, -⟩ := ht.left t rest htok hs ⟨hpt, hgt⟩
      rw [if_pos rfl, hrun] at hstop
      have := hl trivial
      simp only [ParseState.past_index, ParseState.on_index] at hstop
      rcases next_cases hle htok hutok with ⟨-, rfl⟩ | ⟨hplace, -⟩
      · rw [hgt] at hgu
        cases hgu
      · omega

/-- Where the lists part, either branch may be taken on either list: the token tells which. -/
theorem Sincere.choose {g : Token → Bool} {p₁ p₂ q₁ q₂ : Parse α} (hp : Chooses g p p₁ p₂)
    (hq : Chooses g q q₁ q₂) (ht : w.Sincere n (fun t => pre t ∧ g t = true) ⊤ p₁ q₁)
    (hf : w.Sincere n (fun t => pre t ∧ g t = false) firm p₂ q₂) : w.Sincere n pre firm p q :=
  fun s hn => .choose hp hq (ht s hn) (hf s hn)

/-- A test of the next token chooses between two steps, of which the first takes that
token. -/
theorem Sincere.test {q : Parse Bool} {g : Token → Bool} {P : Token → Prop} (hq : Peeks q g)
    (hP : ∀ t, t.WellMade → (g t = true ↔ P t)) {F G : Bool → Parse α}
    (ht : w.Sincere n (fun t => pre t ∧ P t) ⊤ (F true) (G true))
    (hf : w.Sincere n (fun t => pre t ∧ ¬P t) firm (F false) (G false)) :
    w.Sincere n pre firm (q >>= F) (q >>= G) :=
  .choose (hq.chooses F) (hq.chooses G)
    (ht.restrict fun t made h => ⟨h.1, (hP t made).mp h.2⟩)
    (hf.restrict fun t made h => ⟨h.1, fun hp => by simp [(hP t made).mpr hp] at h⟩)

/-- A test of the next token chooses between two steps, of which the second takes that
token. -/
theorem Sincere.testNot {q : Parse Bool} {g : Token → Bool} {P : Token → Prop}
    (hq : Peeks q g) (hP : ∀ t, t.WellMade → (g t = true ↔ P t)) {F G : Bool → Parse α}
    (ht : w.Sincere n (fun t => pre t ∧ P t) firm (F true) (G true))
    (hf : w.Sincere n (fun t => pre t ∧ ¬P t) ⊤ (F false) (G false)) :
    w.Sincere n pre firm (q >>= F) (q >>= G) := by
  refine .choose (hq.chooses F).not (hq.chooses G).not
    (hf.restrict fun t made h => ⟨h.1, fun hp => ?_⟩)
    (ht.restrict fun t made h => ⟨h.1, (hP t made).mp ?_⟩)
  · simp [(hP t made).mpr hp] at h
  · simpa using h.2

/-- The tokens are of two sorts, and the step takes the next one if it is of the first
sort. -/
theorem Sincere.split (g : Token → Bool)
    (ht : w.Sincere n (fun t => pre t ∧ g t = true) ⊤ p q)
    (hf : w.Sincere n (fun t => pre t ∧ g t = false) firm p q) : w.Sincere n pre firm p q :=
  .choose (chooses_self g p) (chooses_self g q) ht hf

/-- The next token is looked at and taken. -/
theorem Sincere.current {F G : Token → Parse α}
    (h : ∀ t, t.WellMade → pre t → w.Sincere n (· = t) ⊤ (F t) (G t)) :
    w.Sincere n pre ⊤ (current >>= F) (current >>= G) := by
  intro s hn
  refine ⟨fun t rest ht hs hpre => ?_, fun t rest ht hs hpre => ?_, ?_⟩
  · rw [bind_of_ok (peeks_current _ t rest ht)]
    exact (h t (ht ▸ hs).wellMade hpre s hn).left t rest ht hs rfl
  · rw [bind_of_ok (peeks_current _ t rest ht)]
    exact (h t (ht ▸ hs).wellMade hpre s hn).right t rest ht hs rfl
  · intro hle hs t u rest rest' ht hu hpt hpu hstop
    have at_t := h t (ht ▸ hs).wellMade hpt s hn
    rw [bind_of_ok (peeks_current _ t rest ht)] at hstop ⊢
    obtain ⟨l, hl, hrun, -⟩ := at_t.left t rest ht hs rfl
    have inside : s.index < w.place := by
      have := hl trivial
      simp only [id, hrun, ParseState.past_index, ParseState.on_index] at hstop
      omega
    rcases next_cases hle ht hu with ⟨-, rfl⟩ | ⟨hplace, -⟩
    · rw [bind_of_ok (peeks_current _ u rest' hu)]
      exact at_t.meets hle hs u u rest rest' ht hu rfl rfl hstop
    · omega

/-- The next token is looked at, and nothing depends on it but what is yielded. -/
theorem Sincere.start {F G : Token → Parse α}
    (h : ∀ t u, pre t → pre u → w.Sincere n pre firm (F t) (G u)) :
    w.Sincere n pre firm (Parse.current >>= F) (Parse.current >>= G) := by
  intro s hn
  refine ⟨fun t rest ht hs hpre => ?_, fun t rest ht hs hpre => ?_, ?_⟩
  · rw [bind_of_ok (peeks_current _ t rest ht)]
    exact (h t t hpre hpre s hn).left t rest ht hs hpre
  · rw [bind_of_ok (peeks_current _ t rest ht)]
    exact (h t t hpre hpre s hn).right t rest ht hs hpre
  · intro hle hs t u rest rest' ht hu hpt hpu hstop
    rw [bind_of_ok (peeks_current _ t rest ht)] at hstop ⊢
    rw [bind_of_ok (peeks_current _ u rest' hu)]
    exact (h t u hpt hpu s hn).meets hle hs t u rest rest' ht hu hpt hpu hstop

/-! ## Failure -/

/-- Both steps fail at once, and nothing that the first expected fits the token at the
place. -/
theorem SincereAt.of_error
    (hp : ∀ t rest, (s.on w.source).ahead = t :: rest → t.WellMade → pre t →
      ∃ e, p (s.on w.source) = (.error e, s.on w.source) ∧
        (w.token.WellMade → pre w.token → s.index = w.place → w.Unfit e))
    (hq : ∀ t rest, (s.on w.target).ahead = t :: rest → t.WellMade → pre t →
      ∃ e, q (s.on w.target) = (.error e, s.on w.target)) : w.SincereAt pre ⊥ p q s := by
  refine ⟨fun t rest ht hs hpre => ?_, fun t rest ht hs hpre => ?_, ?_⟩
  · obtain ⟨e, he, -⟩ := hp t rest ht (ht ▸ hs).wellMade hpre
    exact ⟨0, False.elim, congrArg Prod.snd he, hs⟩
  · obtain ⟨e, he⟩ := hq t rest ht (ht ▸ hs).wellMade hpre
    exact ⟨0, False.elim, congrArg Prod.snd he, hs⟩
  · intro hle hs t u rest rest' ht hu hpt hpu _
    obtain ⟨e, he, fits⟩ := hp t rest ht (ht ▸ hs).wellMade hpt
    rw [he]
    refine .unfit rfl fun hplace => ?_
    rcases next_cases hle ht hu with ⟨lt, -⟩ | ⟨-, rfl⟩
    · exact absurd hplace lt.ne
    · exact fits (hu ▸ w.ended_target hle).wellMade hpu hplace

/-- To see that a complaint does not fit, it is enough to look at what it names. -/
theorem unfit_unexpected {complaint : Complaint} {rule : Option Rule} {t : Token}
    (h : ∀ xs, complaint = .expected xs → ∀ x ∈ xs, x.Admits w.token → w.Overstated x) :
    w.Unfit (.unexpected ⟨complaint, rule, t⟩) := by
  intro e xs he hxs
  obtain rfl := ParseFailure.unexpected.inj he
  exact h xs hxs

/-- A token may be rejected if nothing that is named admits the token at the place. -/
theorem sincereAt_reject {complaint : Complaint} (h : pre w.token → s.index = w.place →
    ∀ xs, complaint = .expected xs → ∀ x ∈ xs, x.Admits w.token → w.Overstated x) :
    w.SincereAt pre ⊥ (reject complaint : Parse α) (reject complaint) s :=
  .of_error (fun _ _ ht _ _ => ⟨_, reject_eq ht complaint, fun _ hpre hplace =>
    unfit_unexpected (h hpre hplace)⟩) fun _ _ ht _ _ => ⟨_, reject_eq ht complaint⟩

/-- One of several alternatives is expected, and the next token fits none of them. -/
theorem sincere_expect {xs : List Expectation}
    (h : ∀ t, pre t → ¬firm t ∧ ∀ x ∈ xs, ¬x.Admits t) :
    w.Sincere n pre firm (expect xs : Parse α) (expect xs) := by
  have rejected : w.Sincere n pre ⊥ (expect xs : Parse α) (expect xs) :=
    fun _ _ => sincereAt_reject fun hpre _ ys hys x hx fits => by
      obtain rfl := Complaint.expected.inj hys
      exact absurd fits ((h w.token hpre).2 x hx)
  exact rejected.mono le_rfl (fun _ _ => id) fun t _ hpre hfirm => (h t hpre).1 hfirm

/-! ## A second token -/

/-- The token behind the next one decides between two steps, of which the first takes both. -/
theorem sincere_look {d : Token → Bool} {F G : Bool → Parse α}
    (hend : ∀ t, t.WellMade → pre t → t.kind ≠ .endOfInput)
    (each : ∀ b, w.Sincere n pre ⊤ (F b) (G b))
    (two : ∀ s t u rest, Ended s.ahead → s.ahead = t :: u :: rest → pre t → d u = true →
      s.index + 2 ≤ (F true s).2.index ∧ s.index + 2 ≤ (G true s).2.index) :
    w.Sincere n pre ⊤ (look 1 >>= fun u => F (d u)) (look 1 >>= fun u => G (d u)) := by
  have second {s : ParseState} {t : Token} {rest : List Token} (ht : s.ahead = t :: rest)
      (hs : Ended s.ahead) (hpre : pre t) : ∃ u rest', rest = u :: rest' ∧
      look 1 s = (.ok u, s) := by
    have behind : Ended rest := (ht ▸ hs).tail (hend t (ht ▸ hs).wellMade hpre)
    obtain ⟨u, rest', rfl⟩ := List.exists_cons_of_ne_nil behind.ne_nil
    exact ⟨u, rest', rfl, look_one ht (ParseState.ahead_past_one ht)⟩
  intro s hn
  refine ⟨fun t rest ht hs hpre => ?_, fun t rest ht hs hpre => ?_, ?_⟩
  · obtain ⟨u, rest', rfl, hu⟩ := second ht hs hpre
    rw [bind_of_ok hu]
    exact (each (d u) s hn).left t _ ht hs hpre
  · obtain ⟨u, rest', rfl, hu⟩ := second ht hs hpre
    rw [bind_of_ok hu]
    exact (each (d u) s hn).right t _ ht hs hpre
  intro hle hs t u rest rest' ht hu hpt hpu hstop
  obtain ⟨t₁, rest₁, rfl, ht₁⟩ := second ht hs hpt
  obtain ⟨u₁, rest₁', rfl, hu₁⟩ := second hu (w.ended_target hle) hpu
  rw [bind_of_ok ht₁] at hstop ⊢
  rw [bind_of_ok hu₁]
  obtain ⟨l, hl, hrun, -⟩ := (each (d t₁) s hn).left t _ ht hs hpt
  have lt : s.index + 1 ≤ w.place := by
    have := hl trivial
    rw [hrun, ParseState.past_index, ParseState.on_index] at hstop
    omega
  have same := next_cases (s := s.past 1) lt (ParseState.ahead_past_one ht)
    (ParseState.ahead_past_one hu)
  -- where the second tokens lead to different steps they are at the place
  cases hdt : d t₁ with
  | false =>
    rw [hdt] at hstop
    cases hdu : d u₁ with
    | false => exact (each false s hn).meets hle hs t u _ _ ht hu hpt hpu hstop
    | true =>
      have pass := (two _ u u₁ rest₁' (w.ended_target hle) hu hpu hdu).2
      rcases same with ⟨-, rfl⟩ | ⟨hplace, -⟩
      · rw [hdt] at hdu
        cases hdu
      · refine .passed ?_
        simp only [ParseState.past_index, ParseState.on_index] at hplace pass
        omega
  | true =>
    rw [hdt] at hstop
    cases hdu : d u₁ with
    | true => exact (each true s hn).meets hle hs t u _ _ ht hu hpt hpu hstop
    | false =>
      have pass := (two _ t t₁ rest₁ hs ht hpt hdt).1
      rcases same with ⟨-, rfl⟩ | ⟨hplace, -⟩
      · rw [hdt] at hdu
        cases hdu
      · simp only [ParseState.past_index, ParseState.on_index] at hplace pass
        omega

end Fork

end ProtoSchema
