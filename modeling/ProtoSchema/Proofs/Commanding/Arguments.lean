import ProtoSchema.CommandLine.Invocation

/-!
# Options and their values

Where what is joined to an option is its value, an option that takes a value is carried out
with one. So an indent that is asked for is a number there, and never a blank.
-/
namespace ProtoSchema.CommandLine

/-- What is read in two steps comes of both. -/
theorem exists_of_bind_ok {α β : Type} {x : Except Refusal α}
    {f : α → Except Refusal β} {b : β} (h : x >>= f = .ok b) :
    ∃ a, x = .ok a ∧ f a = .ok b := by
  cases x with
  | error e => cases h
  | ok a => exact ⟨a, rfl, h⟩

theorem exists_of_map_ok {α β : Type} {x : Except Refusal α} {f : α → β} {b : β}
    (h : x.map f = .ok b) : ∃ a, x = .ok a ∧ f a = b := by
  cases x with
  | error e => cases h
  | ok a => exact ⟨a, rfl, Except.ok.inj h⟩

namespace Synopsis

variable {σ Switch : Type} {s : Synopsis σ Switch} {P : σ → Prop} {settings settings' : σ}

/-! ## What options are carried out with -/

/-- An option that takes a value has one, or the next word is to be it. -/
def Supplied (s : Synopsis σ Switch) (given : Switch × Supply) : Prop :=
  s.takesValue given.1 = true → given.2 ≠ .complete none

theorem supplied_bare (switch : Switch) : s.Supplied (s.bare switch) := by
  intro h
  simp only [bare] at h ⊢
  rw [if_pos h]
  nofun

theorem supplied_joined (switch : Switch) (value : Text) :
    s.Supplied (switch, .joined .late value) := fun _ => nofun

theorem supplied_flag {switch : Switch} (h : ¬s.takesValue switch = true) :
    s.Supplied (switch, .complete none) := fun htakes => absurd htakes h

/-- The options of a word of short ones are supplied: only the last of them takes a value. -/
theorem supplied_strung {switch : Switch} {byEquals : Bool} {joined : Text}
    {b : Strung Switch} (h : s.strung .late switch byEquals joined = .ok b) :
    ∀ given ∈ b.given, s.Supplied given := by
  fun_induction strung s .late switch byEquals joined generalizing b with
  | case1 switch =>
    obtain rfl := Except.ok.inj h
    exact List.forall_mem_singleton.mpr (supplied_joined switch [])
  | case3 switch _ g rest =>
    obtain rfl := Except.ok.inj h
    exact List.forall_mem_singleton.mpr (supplied_joined switch (g :: rest))
  | case6 _ _ _ _ flag =>
    obtain rfl := Except.ok.inj h
    exact List.forall_mem_singleton.mpr (supplied_flag flag)
  | case7 _ _ _ flag _ next =>
    obtain rfl := Except.ok.inj h
    exact List.forall_mem_cons.mpr
      ⟨supplied_flag flag, List.forall_mem_singleton.mpr (supplied_bare next)⟩
  | case8 _ _ _ flag _ _ _ _ _ behind =>
    rename_i equals plain
    obtain ⟨others, hbehind, rfl⟩ := exists_of_map_ok h
    refine List.forall_mem_cons.mpr ⟨supplied_flag flag, ?_⟩
    unfold behind at hbehind
    split at hbehind
    · exact equals hbehind
    · exact plain hbehind
  | case2 | case4 | case5 => cases h

theorem supplied_optionsOf {given : GivenOption Switch} {b : Strung Switch}
    (h : s.optionsOf .late given = .ok b) : ∀ given ∈ b.given, s.Supplied given := by
  unfold optionsOf at h
  split at h
  · obtain rfl := Except.ok.inj h
    exact List.forall_mem_singleton.mpr (supplied_bare _)
  · split at h
    · exact supplied_strung h
    · split at h
      · obtain rfl := Except.ok.inj h
        exact List.forall_mem_singleton.mpr (supplied_joined _ _)
      · cases h

/-- Options that are supplied are carried out with their values. -/
theorem isSome_of_withValue {given : List (Switch × Supply)}
    {next : Option (Text × Word Switch)} {valued : List (Switch × Option Text)} {taken : Bool}
    (hgiven : ∀ g ∈ given, s.Supplied g) (h : withValue given next = .ok (valued, taken)) :
    ∀ v ∈ valued, s.takesValue v.1 = true → v.2.isSome = true := by
  fun_induction withValue given next generalizing valued taken with
  | case1 =>
    obtain ⟨rfl, -⟩ := Prod.mk.inj (Except.ok.inj h)
    nofun
  | case2 switch value rest ih =>
    obtain ⟨first, others⟩ := List.forall_mem_cons.mp hgiven
    obtain ⟨⟨behind, took⟩, hrest, heq⟩ := exists_of_map_ok h
    obtain ⟨rfl, -⟩ := Prod.mk.inj heq
    refine List.forall_mem_cons.mpr ⟨fun takes => ?_, ih others hrest⟩
    exact Option.isSome_iff_ne_none.mpr fun none =>
      first takes (congrArg Supply.complete none)
  | case3 =>
    obtain ⟨rfl, -⟩ := Prod.mk.inj (Except.ok.inj h)
    exact List.forall_mem_singleton.mpr fun _ => rfl
  | case4 => cases h

/-! ## What a command line keeps -/

/-- A property of the settings that options and operands keep, if every option that takes a
value is carried out with one. -/
structure Keeps (s : Synopsis σ Switch) (P : σ → Prop) : Prop where
  act {switch : Switch} {value : Option Text} {settings settings' : σ} :
    (s.takesValue switch = true → value.isSome = true) → P settings →
    s.act switch value settings = .ok settings' → P settings'
  fill {words : List Text} {settings settings' : σ} :
    P settings → s.fill words settings = .ok settings' → P settings'

theorem Keeps.actAll (hs : s.Keeps P) {valued : List (Switch × Option Text)}
    (hvalued : ∀ v ∈ valued, s.takesValue v.1 = true → v.2.isSome = true) (hP : P settings)
    (h : s.actAll valued settings = .ok settings') : P settings' := by
  induction valued generalizing settings with
  | nil => exact Except.ok.inj h ▸ hP
  | cons v valued ih =>
    obtain ⟨first, others⟩ := List.forall_mem_cons.mp hvalued
    obtain ⟨next, hact, h⟩ := exists_of_bind_ok h
    exact ih others (hs.act first hP hact) h

/-- Going through the words keeps it. -/
theorem Keeps.run (hs : s.Keeps P) {filled extra extra' : Bool}
    {words : List (Text × Word Switch)} (hP : P settings)
    (h : s.run .late filled extra words settings = .ok (settings', extra')) :
    P settings' := by
  fun_induction Synopsis.run s .late filled extra words settings with
  | case1 => exact (Prod.mk.inj (Except.ok.inj h)).1 ▸ hP
  | case2 =>
    obtain ⟨next, hfill, heq⟩ := exists_of_map_ok h
    exact (Prod.mk.inj heq).1 ▸ hs.fill hP hfill
  | case4 filled extra _ given rest settings ih =>
    obtain ⟨options, hoptions, h⟩ := exists_of_bind_ok h
    obtain ⟨⟨valued, taken⟩, hvalued, h⟩ := exists_of_bind_ok h
    obtain ⟨next, hact, h⟩ := exists_of_bind_ok h
    have values := isSome_of_withValue (supplied_optionsOf hoptions) hvalued
    exact ih options taken next (hs.actAll values hP hact)
      (by simpa only [dite_eq_ite] using h)
  | case7 _ _ _ _ _ _ _ _ _ _ _ ih =>
    obtain ⟨next, hfill, h⟩ := exists_of_bind_ok h
    exact ih next (hs.fill hP hfill) h
  | case3 _ _ _ _ _ ih => exact ih hP h
  | case5 _ _ _ _ _ _ ih => exact ih hP h
  | case6 _ _ _ _ _ _ _ _ _ ih => exact ih hP h

theorem Keeps.read (hs : s.Keeps P) {extra : Bool} {words : List Text} (hP : P settings)
    (h : s.read .late words settings = .ok (settings', extra)) : P settings' := by
  obtain ⟨kinds, -, h⟩ := exists_of_bind_ok h
  exact hs.run hP h

end Synopsis

/-! ## The indent -/

end ProtoSchema.CommandLine
