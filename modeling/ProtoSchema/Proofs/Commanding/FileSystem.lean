import Mathlib.Data.List.Basic
import ProtoSchema.Host

/-!
# Files that are written

What has been written to a path is read there. A path goes through directories only, and what
is written stands in the place of none of them, so the path leads to it as it led to the place
before.
-/
namespace ProtoSchema.FileSystem

variable {fs : FileSystem} {place : Place} {bytes : List UInt8}
  {target t : Target} {name : Text}
  {names : List Text} {p : Path}

/-- An entry that is put on record is there, and no other place has changed. -/
theorem lookup?_put (fs : FileSystem) (place : Place) (entry : Entry) (at_ : Place) :
    (fs.put place entry).lookup? at_ =
      if isGiven at_ then some .directory else if at_ = place then some entry
        else fs.lookup? at_ := by
  by_cases hgiven : isGiven at_
  · rw [lookup?, if_pos hgiven, if_pos hgiven]
  by_cases heq : at_ = place
  · subst heq
    have others :
        (fs.entries.filter fun e => e.1 ≠ at_).find? (fun e => e.1 = at_) = none := by
      simp [List.find?_eq_none]
    rw [lookup?, put, if_neg hgiven, if_neg hgiven, if_pos rfl, List.find?_append, others]
    simp
  · have kept : (fs.entries.filter fun e => e.1 ≠ place).find? (fun e => e.1 = at_) =
        fs.entries.find? fun e => e.1 = at_ := by
      rw [List.find?_filter]
      congr 1
      funext e
      by_cases he : e.1 = at_ <;> simp [he, heq]
    rw [lookup?, lookup?, put, if_neg hgiven, if_neg hgiven, if_neg hgiven, if_neg heq,
      List.find?_append, kept]
    simp [Ne.symm heq]

/-- Where one gets to at a place, by what is there. -/
def landing (place : Place) : Option Entry → Target
  | some (.file bytes) => .file place bytes
  | some .directory => .directory place
  | none => .absent place

theorem place_of_landing {place' : Place} {entry : Option Entry}
    (h : landing place' entry = .absent place ∨ ∃ old, landing place' entry =
      .file place old) :
    place' = place := by
  rcases entry with _ | ⟨bytes⟩ | _
  · simpa [landing] using h
  · simpa [landing] using h
  · simp [landing] at h

theorem follow_up (d : Place) :
    fs.follow [.char '.', .char '.'] (.directory d) = .ok (.directory (above d)) := rfl

theorem follow_name (hname : name ≠ [.char '.', .char '.']) (d : Place) :
    fs.follow name (.directory d) =
      if nameLimit < (Utf8.encode name).length then .error .nameTooLong
      else .ok (landing (d ++ [name]) (fs.lookup? (d ++ [name]))) := by
  refine (if_neg hname).trans ?_
  split
  · rfl
  · dsimp only
    rcases fs.lookup? (d ++ [name]) with _ | _ | _ <;> rfl

/-- A name leads up from a directory, whatever the entries are, or to a place in the
directory. -/
theorem follow_cases (h : fs.follow name target = .ok t) : ∃ d, target = .directory d ∧
    ((∃ d', t = .directory d' ∧ ∀ fs' : FileSystem, fs'.follow name target = .ok t) ∨
      t = landing (d ++ [name]) (fs.lookup? (d ++ [name])) ∧
        ∀ fs' : FileSystem, fs'.follow name target =
          .ok (landing (d ++ [name]) (fs'.lookup? (d ++ [name])))) := by
  cases target with
  | file _ _ => cases h
  | absent _ => cases h
  | directory d =>
    refine ⟨d, rfl, ?_⟩
    by_cases hname : name = [.char '.', .char '.']
    · subst hname
      obtain rfl := Except.ok.inj h
      exact .inl ⟨_, rfl, fun fs' => fs'.follow_up d⟩
    · simp only [follow_name hname] at h ⊢
      split at h
      · cases h
      · next hlength => exact .inr ⟨(Except.ok.inj h).symm, fun _ => if_neg hlength⟩

/-- One name after the other, from a directory. -/
theorem foldlM_follow_cons
    (h : (name :: names).foldlM (fun t name => fs.follow name t) target = .ok t) :
    ∃ next, fs.follow name target = .ok next ∧
      names.foldlM (fun t name => fs.follow name t) next = .ok t := by
  rw [List.foldlM_cons] at h
  cases hfollow : fs.follow name target with
  | error e =>
    rw [hfollow] at h
    cases h
  | ok next =>
    rw [hfollow] at h
    exact ⟨next, rfl, h⟩

/-- What is no directory ends a path. -/
theorem foldlM_follow_landed {entry : Option Entry} (hentry : entry ≠ some .directory)
    (h : names.foldlM (fun t name => fs.follow name t) (landing place entry) = .ok t) :
    names = [] ∧ t = landing place entry := by
  cases names with
  | nil => exact ⟨rfl, (Except.ok.inj h).symm⟩
  | cons name names =>
    obtain ⟨next, hnext, -⟩ := foldlM_follow_cons h
    obtain ⟨d, hd, -⟩ := follow_cases hnext
    rcases entry with _ | _ | _
    · cases hd
    · cases hd
    · exact absurd rfl hentry

/-- What names lead to, other than a directory, is what is on record there. With a file on
record there the same names lead to the file. -/
theorem foldlM_follow_put {d : Place}
    (h : names.foldlM (fun t name => fs.follow name t) (.directory d) = .ok t)
    (ht : ∀ d', t ≠ .directory d') : ∃ place, t = landing place (fs.lookup? place) ∧
      names.foldlM (fun t name => (fs.put place (.file bytes)).follow name t) (.directory d) =
        .ok (.file place bytes) := by
  induction names generalizing d with
  | nil => exact absurd (Except.ok.inj h).symm (ht d)
  | cons name names ih =>
    obtain ⟨next, hnext, h⟩ := foldlM_follow_cons h
    obtain ⟨_, ⟨⟩, ⟨d', rfl, same⟩ | ⟨rfl, land⟩⟩ := follow_cases hnext
    · obtain ⟨place, hplace, hput⟩ := ih h
      refine ⟨place, hplace, ?_⟩
      rw [List.foldlM_cons, same]
      exact hput
    · by_cases hdir : fs.lookup? (d ++ [name]) = some .directory
      · rw [hdir] at h
        obtain ⟨place, rfl, hput⟩ := ih h
        refine ⟨place, rfl, ?_⟩
        -- The directory on the way is not where the file is put.
        have other : d ++ [name] ≠ place := by
          rintro rfl
          exact ht _ (by rw [hdir, landing])
        have kept : (fs.put place (.file bytes)).lookup? (d ++ [name]) = some .directory := by
          rw [lookup?_put, if_neg other, hdir, ite_self]
        rw [List.foldlM_cons, land, kept]
        exact hput
      · obtain ⟨rfl, rfl⟩ := foldlM_follow_landed hdir h
        have given : ¬isGiven (d ++ [name]) :=
          fun hgiven => hdir (by rw [lookup?, if_pos hgiven])
        have put : (fs.put (d ++ [name]) (.file bytes)).lookup? (d ++ [name]) =
            some (.file bytes) := by
          rw [lookup?_put, if_neg given, if_pos rfl]
        refine ⟨d ++ [name], rfl, ?_⟩
        rw [List.foldlM_cons, land, put]
        rfl

/-- A file that is put where a path leads is found there. -/
theorem resolve_put (h : fs.resolve p = .ok t) (ht : ∀ d, t ≠ .directory d)
    (bytes : List UInt8) : ∃ place, t = landing place (fs.lookup? place) ∧
      (fs.put place (.file bytes)).resolve p = .ok (.file place bytes) := by
  unfold resolve at h ⊢
  split at h
  · cases h
  · next hlength =>
    obtain ⟨place, hplace, hput⟩ := foldlM_follow_put h ht
    exact ⟨place, hplace, by rw [if_neg hlength, hput]⟩

/-- What was written to a path is read there. -/
theorem read_write {fs' : FileSystem} (h : fs.write p bytes = .ok fs') :
    fs'.read p = .ok bytes := by
  have written (place : Place) (t : Target) (ht : fs.resolve p = .ok t)
      (hleads : t = .absent place ∨ ∃ old, t = .file place old)
      (hput : fs' = fs.put place (.file bytes)) : fs'.read p = .ok bytes := by
    have no_directory (d : Place) : t ≠ .directory d := by
      rcases hleads with rfl | ⟨old, rfl⟩ <;> nofun
    obtain ⟨place', hplace, hfound⟩ := resolve_put ht no_directory bytes
    obtain rfl := place_of_landing (hplace ▸ hleads)
    rw [hput, read, hfound]
  unfold write at h
  split at h
  · next place old ht => exact written place _ ht (.inr ⟨old, rfl⟩) (Except.ok.inj h).symm
  · next place ht => exact written place _ ht (.inl rfl) (Except.ok.inj h).symm
  · cases h
  · cases h

/-- Whether a path can be written to does not depend on what is written. -/
theorem write_error (bytes bytes' : List UInt8) {e : OsError}
    (h : fs.write p bytes = .error e) : fs.write p bytes' = .error e := by
  unfold write at h ⊢
  split at h <;> simp_all

/-- Nothing goes wrong with what is written. -/
theorem host_write_iff {fs' : FileSystem} :
    Host.write fs p bytes = (none, fs') ↔ fs.write p bytes = .ok fs' := by
  cases h : fs.write p bytes <;> simp [Host.write, h]

end ProtoSchema.FileSystem
