import ProtoSchema.Proofs.Parsing.Runs

/-!
# Tokens in front

A parsing step looks ahead only: with other tokens in front of the place where it starts, it
does the same. This is by induction on its run, where each look at a token is said to be at a
distance ahead.
-/
namespace ProtoSchema

open Transfer

variable {α : Type}

namespace ParseState

variable {s : ParseState} (us : List Token)

/-- The same place, with other tokens in front of all tokens. -/
def behind (s : ParseState) : ParseState :=
  ⟨(us ++ s.tokens.toList).toArray, us.length + s.index, s.rules⟩

/-- Past the end the last token stands for ever. -/
theorem tokenAt?_natCast (s : ParseState) (i : ℕ) :
    s.tokenAt? i = if s.tokens.size ≤ i then s.tokens.back? else s.tokens[i]? := by
  unfold tokenAt?
  by_cases h : s.tokens.size ≤ i
  · rw [if_pos (by omega), if_pos h]
  · rw [if_neg (by omega), if_neg h, if_pos (by omega), Int.toNat_natCast]

theorem tokenAt?_behind (hs : s.tokens ≠ #[]) (d : ℕ) :
    (s.behind us).tokenAt? ((s.behind us).index + d) = s.tokenAt? (s.index + d) := by
  have size : (s.behind us).tokens.size = us.length + s.tokens.size := by simp [behind]
  have last : (s.behind us).tokens.back? = s.tokens.back? := by
    have some : s.tokens.toList ≠ [] := by simpa using hs
    simp [behind, List.getLast?_append_of_ne_nil us some]
  have get : (s.behind us).tokens[us.length + (s.index + d)]? = s.tokens[s.index + d]? := by
    simp [behind, List.getElem?_append_right]
  have index : (s.behind us).index + d = us.length + (s.index + d) := Nat.add_assoc ..
  rw [← Int.natCast_add, ← Int.natCast_add, tokenAt?_natCast, tokenAt?_natCast, size, index]
  simp only [Nat.add_le_add_iff_left, last, get]

theorem tokenAt?_index_behind (hs : s.tokens ≠ #[]) :
    (s.behind us).tokenAt? (s.behind us).index = s.tokenAt? s.index := by
  simpa using tokenAt?_behind us hs 0

theorem remaining_behind : (s.behind us).remaining = s.remaining := by
  simp only [remaining, behind, List.size_toArray, List.length_append, Array.length_toList]
  omega

theorem fewer_behind (p : Parse α) : fewer (s.behind us) p = fewer s p := by
  funext t
  rw [fewer, fewer, remaining_behind]

end ParseState

namespace Parse

/-- With other tokens in front, a run goes as it does without. -/
theorem Runs.behind {p : Parse α} {s : ParseState} {entered : List Rule}
    {r : Except ParseFailure α × ParseState} (h : Runs p s entered r) (hs : s.tokens ≠ #[])
    (us : List Token) : Runs p (s.behind us) entered (r.1, r.2.behind us) := by
  induction h with
  | pure a s => exact .pure a _
  | bind hp _ ihp ihf => exact (ihp hs).bind (ihf (hp.passes.tokens ▸ hs))
  | bind_fail _ ih => exact (ih hs).bind_fail
  | look h => exact .look (by rwa [ParseState.tokenAt?_behind us hs])
  | look_none h => exact .look_none (by rwa [ParseState.tokenAt?_behind us hs])
  | take h ht => exact .take (by rwa [ParseState.tokenAt?_index_behind us hs]) ht
  | stay h ht => exact .stay (by rwa [ParseState.tokenAt?_index_behind us hs]) ht
  | advance_none h => exact .advance_none (by rwa [ParseState.tokenAt?_index_behind us hs])
  | reject h => exact .reject (by rwa [ParseState.tokenAt?_index_behind us hs])
  | reject_none h => exact .reject_none (by rwa [ParseState.tokenAt?_index_behind us hs])
  | numeral r s => exact .numeral r _
  | @within _ _ _ s _ _ _ ih => exact Runs.within (s := s.behind us) (ih hs)
  | @within_fail _ _ _ s _ _ _ _ ih => exact Runs.within_fail (s := s.behind us) (ih hs)
  | fewer hlt _ ih => exact (ih hs).fewer (by rwa [ParseState.remaining_behind])
  | endless hlt => exact .endless (by rwa [ParseState.remaining_behind])
  | whileMore _ ih =>
    apply Runs.whileMore
    rw [ParseState.fewer_behind]
    exact ih hs
  | recursive _ ih =>
    apply Runs.recursive
    rw [ParseState.fewer_behind]
    exact ih hs

end Parse

end ProtoSchema
