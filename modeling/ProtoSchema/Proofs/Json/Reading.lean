import ProtoSchema.Proofs.Document.Arranged
import ProtoSchema.Proofs.Json.Number
import ProtoSchema.Proofs.Json.Text

/-!
# Documents in JSON

The text of a document, however it is set out, is read as the document, or as the arranged one
if its keys were put in order. The pieces of the text do not depend on the indent, and the
machine takes the pieces of a document as the document.
-/
namespace ProtoSchema

/-- Pairs with different keys are the entries of their object. -/
theorem Document.ofPairs_eq {es : List (Text × Document)}
    (h : es.Pairwise fun a b => a.1 ≠ b.1) : Document.ofPairs es = .object es := by
  have put_new {es : List (Text × Document)} {key : Text} {d : Document}
      (h : ∀ e ∈ es, e.1 ≠ key) : put es key d = es ++ [(key, d)] := by
    induction es with
    | nil => rfl
    | cons e es ih =>
      rw [put, if_neg (h e (by simp)), ih fun e he => h e (by simp [he])]
      rfl
  have from_before (before : List (Text × Document))
      (h : (before ++ es).Pairwise fun a b => a.1 ≠ b.1) :
      es.foldl (fun entries e => put entries e.1 e.2) before = before ++ es := by
    induction es generalizing before with
    | nil => simp
    | cons e es ih =>
      have new : ∀ b ∈ before, b.1 ≠ e.1 := fun b hb =>
        (List.pairwise_append.mp h).2.2 b hb e (by simp)
      rw [List.foldl_cons, put_new new, ih (h.sublist (by simp)) _ (by simpa using h),
        List.append_assoc]
      rfl
  exact congrArg Document.object (from_before [] h)

namespace Json

open Document (Style Keyed)

variable {c : Char} {cs rest : List Char} {m : Mark} {d : Document} {ps : List Piece}

/-! ## The pieces of a document -/

/-- Items between two marks, with commas between them. -/
def enclosed (left right : Mark) : List (List Piece) → List Piece
  | [] => [.mark left, .mark right]
  | ps :: items => .mark left :: ps ++ items.flatMap (.mark .comma :: ·) ++ [.mark right]

mutual

/-- The pieces of the text of a document. -/
def pieces : Document → List Piece
  | .list ds => enclosed .openList .closeList (piecesAll ds)
  | .object es => enclosed .openObject .closeObject (piecesEntries es)
  | d => [.value d]

/-- The pieces of the elements of a list. -/
def piecesAll : List Document → List (List Piece)
  | [] => []
  | d :: ds => pieces d :: piecesAll ds

/-- The pieces of the entries of an object, with the keys in front. -/
def piecesEntries : List (Text × Document) → List (List Piece)
  | [] => []
  | (key, d) :: es => (.value (.text key) :: .mark .colon :: pieces d) :: piecesEntries es

end

@[simp] theorem piecesAll_eq (ds : List Document) : piecesAll ds = ds.map pieces := by
  induction ds with
  | nil => rfl
  | cons d ds ih => simp [piecesAll, ih]

@[simp] theorem piecesEntries_eq (es : List (Text × Document)) : piecesEntries es =
    es.map fun e => .value (.text e.1) :: .mark .colon :: pieces e.2 := by
  induction es with
  | nil => rfl
  | cons e es ih => simp [piecesEntries, ih]

/-! ## From characters to pieces -/

/-- No word goes on in the text. -/
def Apart (cs : List Char) : Prop := ∀ c ∈ cs.head?, isWordCharacter c = false

theorem pieces?_blank (hc : isBlank c = true) (cs : List Char) :
    pieces? (c :: cs) = pieces? cs := by
  rw [pieces?, if_pos hc]

/-- Line breaks and indents are blanks, whichever the style. -/
theorem pieces?_newline (style : Style) (depth : ℕ) (cs : List Char) :
    pieces? (style.newline depth ++ cs) = pieces? cs := by
  have spaces (k : ℕ) : pieces? (List.replicate k ' ' ++ cs) = pieces? cs := by
    induction k with
    | zero => rfl
    | succ k ih => rw [List.replicate_succ, List.cons_append, pieces?_blank (by decide), ih]
  rw [Style.newline, List.cons_append, pieces?_blank (by decide), spaces]

theorem pieces?_mark (hm : mark? c = some m) (cs : List Char) :
    pieces? (c :: cs) = (pieces? cs).map (.mark m :: ·) := by
  have noBlank : isBlank c = false := by
    rw [← Bool.not_eq_true]
    intro blank
    simp only [isBlank, Bool.or_eq_true, decide_eq_true_eq, or_assoc] at blank
    rcases blank with rfl | rfl | rfl | rfl <;> cases hm
  rw [pieces?, if_neg (by simp [noBlank]), hm]

theorem mark?_comma : mark? ',' = some .comma := rfl

theorem mark?_colon : mark? ':' = some .colon := rfl

/-- A text is read back as one piece, whatever stands behind it. -/
theorem pieces?_text (t : Text) (cs : List Char) :
    pieces? (Document.writeText t ++ cs) = (pieces? cs).map (.value (.text t) :: ·) := by
  have scan := scanString_text t cs
  have text : Document.writeText t ++ cs = '"' ::
      (t.flatMap Document.escaped ++ '"' :: cs) := by
    simp [Document.writeText]
  have none : mark? '"' = none := rfl
  rw [text, pieces?, if_neg (by decide), none]
  simp only [↓reduceIte]
  split
  · next codes rest h =>
    rw [scan] at h
    cases h
    rw [text?_codes, Option.bind_some]
  · next h =>
    rw [scan] at h
    cases h

/-- A character of a word is neither blank nor a mark, nor does it open a string. -/
theorem isWordCharacter_other (h : isWordCharacter c = true) :
    isBlank c = false ∧ mark? c = none ∧ c ≠ '"' := by
  have other : ∀ x ∈ [' ', '\t', '\n', '\r', '[', ']', '{', '}', ',', ':', '"'],
      isWordCharacter x = false := List.forall_iff_forall_mem.mp (by decide)
  have differs (x : Char)
      (hx : x ∈ [' ', '\t', '\n', '\r', '[', ']', '{', '}', ',', ':', '"']) :
      c ≠ x := by
    rintro rfl
    rw [other c hx] at h
    cases h
  simp [isBlank, mark?, differs]

/-- A word is read back as one piece if no character of a word stands behind it. -/
theorem pieces?_word (h : IsWord cs d) (hrest : Apart rest) :
    pieces? (cs ++ rest) = (pieces? rest).map (.value d :: ·) := by
  cases cs with
  | nil => cases h.value
  | cons c cs =>
    obtain ⟨blank, mark, quote⟩ := isWordCharacter_other (h.characters c (by simp))
    have characters : ∀ c ∈ cs, isWordCharacter c = true :=
      fun c hc => h.characters c (by simp [hc])
    have word : (cs ++ rest).takeWhile isWordCharacter = cs ∧
        (cs ++ rest).dropWhile isWordCharacter = rest := by
      rw [List.takeWhile_append_of_pos characters, List.dropWhile_append_of_pos characters]
      cases rest with
      | nil => simp
      | cons b rest => simp [hrest b rfl]
    rw [List.cons_append, pieces?, if_neg (by simp [blank]), mark]
    simp only [if_neg quote, word, h.value, Option.bind_some]

/-- A text that is cut into the pieces, whatever follows it. -/
def Cut (cs : List Char) (ps : List Piece) : Prop :=
  ∀ rest, Apart rest → pieces? (cs ++ rest) = (pieces? rest).map (ps ++ ·)

theorem apart_mark (hm : mark? c = some m) (cs : List Char) : Apart (c :: cs) := by
  rintro b ⟨⟩
  rw [← Bool.not_eq_true]
  intro word
  rw [(isWordCharacter_other word).2.1] at hm
  cases hm

theorem apart_newline (style : Style) (depth : ℕ) (cs : List Char) :
    Apart (style.newline depth ++ cs) := by
  rintro b ⟨⟩
  decide

/-- Items behind the first, with a comma in front of each, and the mark that closes them. -/
theorem pieces?_items (style : Style) (inner outer : ℕ) (hm : mark? c = some m)
    {items : List (List Char × List Piece)} (h : ∀ i ∈ items, Cut i.1 i.2)
    (rest : List Char) :
    pieces? (items.flatMap (fun i => ',' :: style.newline inner ++ i.1) ++
        (style.newline outer ++ c :: rest)) =
      (pieces? rest).map
        (items.flatMap (fun i => .mark .comma :: i.2) ++ [.mark m] ++ ·) := by
  induction items with
  | nil => exact (pieces?_newline style outer _).trans (pieces?_mark hm rest)
  | cons i items ih =>
    have apart : Apart (items.flatMap (fun i => ',' :: style.newline inner ++ i.1) ++
        (style.newline outer ++ c :: rest)) := by
      cases items with
      | nil => exact apart_newline style outer _
      | cons => exact apart_mark mark?_comma _
    have first := h i (by simp) _ apart
    have others := ih fun i hi => h i (by simp [hi])
    rw [List.flatMap_cons, List.append_assoc, List.cons_append, List.cons_append,
      pieces?_mark mark?_comma, List.append_assoc, pieces?_newline, first, others]
    simp [Function.comp_def]

theorem intercalate_cons {α : Type} (separator x : List α) (xs : List (List α)) :
    List.intercalate separator (x :: xs) = x ++ xs.flatMap (separator ++ ·) := by
  induction xs generalizing x with
  | nil => simp [List.intercalate]
  | cons y ys ih =>
    rw [List.intercalate_cons_cons, ih y, List.flatMap_cons, List.append_assoc,
      List.append_assoc]

/-- Enclosed items are cut into their pieces, enclosed. -/
theorem cut_enclose (style : Style) (depth : ℕ) {left right : Char} {l r : Mark}
    (hl : mark? left = some l) (hr : mark? right = some r)
    {items : List (List Char × List Piece)} (h : ∀ i ∈ items, Cut i.1 i.2) :
    Cut (style.enclose depth left right (items.map (·.1)))
      (enclosed l r (items.map (·.2))) := by
  intro rest _
  cases items with
  | nil =>
    have cut := (pieces?_mark hl (right :: rest)).trans (congrArg _ (pieces?_mark hr rest))
    simpa [Style.enclose, enclosed, Function.comp_def] using cut
  | cons i items =>
    have apart : Apart (items.flatMap (fun i => ',' :: style.newline (depth + 1) ++ i.1) ++
        (style.newline depth ++ right :: rest)) := by
      cases items with
      | nil => exact apart_newline style depth _
      | cons => exact apart_mark mark?_comma _
    have first := h i (by simp) _ apart
    have others := pieces?_items style (depth + 1) depth hr
      (fun i hi => h i (List.mem_cons_of_mem _ hi)) rest
    have text : style.enclose depth left right ((i :: items).map (·.1)) ++ rest =
        left :: (style.newline (depth + 1) ++ (i.1 ++
          (items.flatMap (fun i => ',' :: style.newline (depth + 1) ++ i.1) ++
            (style.newline depth ++ right :: rest)))) := by
      simp [Style.enclose, intercalate_cons, List.flatMap_map]
    rw [text, pieces?_mark hl, pieces?_newline, first, others]
    simp [enclosed, List.flatMap_map, Function.comp_def]

/-- The text of a document is cut into its pieces. -/
theorem cut_write (indent : ℤ) (depth : ℕ) {r : Text → Text → Prop} (h : d.Keyed r) :
    Cut (d.write ⟨indent, false⟩ depth) (pieces d) := by
  induction h generalizing depth with
  | null => exact fun rest => pieces?_word isWord_null
  | bool b => exact fun rest => pieces?_word (isWord_bool b)
  | integer n => exact fun rest => pieces?_word (isWord_integer n)
  | real hx => exact fun rest => pieces?_word (isWord_real hx)
  | text t => exact fun rest _ => pieces?_text t rest
  | @list ds _ ih =>
    have items : ∀ i ∈ ds.map fun d => (d.write ⟨indent, false⟩ (depth + 1), pieces d),
        Cut i.1 i.2 :=
      List.forall_mem_map.mpr fun d hd => ih d hd (depth + 1)
    have cut :=
      @cut_enclose ⟨indent, false⟩ depth '[' ']' .openList .closeList rfl rfl _ items
    simpa [Document.write, pieces, Function.comp_def] using cut
  | @object es _ _ ih =>
    have entry (e : Text × Document) (he : e ∈ es) :
        Cut (Document.writeText e.1 ++ ':' :: ' ' :: e.2.write ⟨indent, false⟩ (depth + 1))
          (.value (.text e.1) :: .mark .colon :: pieces e.2) := by
      intro rest apart
      rw [List.append_assoc, List.cons_append, List.cons_append, pieces?_text,
        pieces?_mark mark?_colon, pieces?_blank (by decide),
        ih e he (depth + 1) rest apart]
      simp [Function.comp_def]
    have items : ∀ i ∈ es.map fun e =>
        (Document.writeText e.1 ++ ':' :: ' ' :: e.2.write ⟨indent, false⟩ (depth + 1),
          Piece.value (.text e.1) :: .mark .colon :: pieces e.2), Cut i.1 i.2 :=
      List.forall_mem_map.mpr entry
    have cut :=
      @cut_enclose ⟨indent, false⟩ depth '{' '}' .openObject .closeObject rfl rfl _ items
    simpa [Document.write, Style.order, pieces, Function.comp_def] using cut

/-! ## From pieces to a document -/

/-- Pieces are placed one after the other. -/
theorem Place.steps?_append {place place' : Place} (h : place.steps? ps = some place')
    (qs : List Piece) : place.steps? (ps ++ qs) = place'.steps? qs := by
  induction ps generalizing place with
  | nil =>
    obtain rfl := Option.some.inj h
    rfl
  | cons p ps ih =>
    obtain ⟨between, hp, hps⟩ := Option.bind_eq_some_iff.mp h
    rw [List.cons_append, Place.steps?, hp]
    exact ih hps

/-- No document begins with the end of a list. -/
theorem pieces_head (d : Document) : ∃ p ps, pieces d = p :: ps ∧ p ≠ .mark .closeList := by
  have enclosed_head {l r : Mark} (hl : l ≠ .closeList) (items : List (List Piece)) :
      ∃ p ps, enclosed l r items = p :: ps ∧ p ≠ .mark .closeList := by
    cases items with
    | nil => exact ⟨_, _, rfl, by simpa using hl⟩
    | cons ps items => exact ⟨_, _, rfl, by simpa using hl⟩
  cases d with
  | list ds => exact enclosed_head (l := .openList) nofun (piecesAll ds)
  | object es => exact enclosed_head (l := .openObject) nofun (piecesEntries es)
  | _ => exact ⟨_, _, rfl, nofun⟩

/-- The first element of a list is taken like any other. -/
theorem steps?_element (d : Document) (frames : List Frame) :
    Place.steps? ⟨frames, .element⟩ (pieces d) =
      Place.steps? ⟨.list [] :: frames, .value⟩ (pieces d) := by
  obtain ⟨p, ps, hp, hclose⟩ := pieces_head d
  have step : Place.step? ⟨frames, .element⟩ p =
      Place.step? ⟨.list [] :: frames, .value⟩ p := by
    cases p with
    | value => rfl
    | mark m =>
      cases m with
      | closeList => exact absurd rfl hclose
      | _ => rfl
  rw [hp, Place.steps?, Place.steps?, step]

/-- The machine takes the pieces of the document as the document. -/
def Taken (d : Document) : Prop :=
  ∀ frames, Place.steps? ⟨frames, .value⟩ (pieces d) = some ⟨frames, .after d⟩

/-- Elements behind one that has been read, and the end of the list. -/
theorem steps?_elements {ds : List Document} (h : ∀ d ∈ ds, Taken d) (frames : List Frame)
    (before : List Document) (d : Document) :
    Place.steps? ⟨.list before :: frames, .after d⟩
        (ds.flatMap (fun d => .mark .comma :: pieces d) ++ [.mark .closeList]) =
      some ⟨frames, .after (.list (before ++ d :: ds))⟩ := by
  induction ds generalizing before d with
  | nil => rfl
  | cons e ds ih =>
    have taken : Place.steps? ⟨.list before :: frames, .after d⟩ (.mark .comma :: pieces e) =
        some ⟨.list (before ++ [d]) :: frames, .after e⟩ := h e (by simp) _
    rw [List.flatMap_cons, List.append_assoc, Place.steps?_append taken,
      ih (fun d hd => h d (by simp [hd])), List.append_assoc]
    rfl

/-- Entries behind one that has been read, and the end of the object. -/
theorem steps?_entries {es : List (Text × Document)} (h : ∀ e ∈ es, Taken e.2)
    (frames : List Frame) (before : List (Text × Document)) (key : Text) (d : Document) :
    Place.steps? ⟨.object before key :: frames, .after d⟩
        (es.flatMap
          (fun e => .mark .comma :: .value (.text e.1) :: .mark .colon :: pieces e.2) ++
          [.mark .closeObject]) =
      some ⟨frames, .after (.ofPairs (before ++ (key, d) :: es))⟩ := by
  induction es generalizing before key d with
  | nil => rfl
  | cons e es ih =>
    have taken : Place.steps? ⟨.object before key :: frames, .after d⟩
        (.mark .comma :: .value (.text e.1) :: .mark .colon :: pieces e.2) =
        some ⟨.object (before ++ [(key, d)]) e.1 :: frames, .after e.2⟩ := h e (by simp) _
    rw [List.flatMap_cons, List.append_assoc, Place.steps?_append taken,
      ih (fun e he => h e (by simp [he])), List.append_assoc]
    rfl

/-- A document whose objects name no key twice is taken in piece by piece, and comes out as it
was. -/
theorem taken_of_keyed (h : d.Keyed (· ≠ ·)) : Taken d := by
  induction h with
  | @list ds _ ih =>
    intro frames
    cases ds with
    | nil => rfl
    | cons d ds =>
      have first : Place.steps? ⟨frames, .value⟩ (.mark .openList :: pieces d) =
          some ⟨.list [] :: frames, .after d⟩ :=
        (steps?_element d frames).trans (ih d (by simp) _)
      have others :=
        steps?_elements (fun e he => ih e (List.mem_cons_of_mem d he)) frames [] d
      have whole := (Place.steps?_append first _).trans others
      simpa [pieces, enclosed, List.flatMap_map] using whole
  | @object es keys _ ih =>
    intro frames
    cases es with
    | nil => rfl
    | cons e es =>
      have first : Place.steps? ⟨frames, .value⟩
          (.mark .openObject :: .value (.text e.1) :: .mark .colon :: pieces e.2) =
          some ⟨.object [] e.1 :: frames, .after e.2⟩ :=
        ih e (by simp) _
      have others :=
        steps?_entries (fun b hb => ih b (List.mem_cons_of_mem e hb)) frames [] e.1 e.2
      have whole := (Place.steps?_append first _).trans others
      rw [List.nil_append, Document.ofPairs_eq keys] at whole
      simpa [pieces, enclosed, List.flatMap_map] using whole
  | _ => exact fun frames => rfl

/-! ## Texts -/

theorem read?_write (h : d.Keyed (· ≠ ·)) (indent : ℤ) :
    read? (d.toJson ⟨indent, false⟩) = some d := by
  have cut := cut_write indent 0 h [] nofun
  have none : pieces? [] = some [] := by rw [pieces?]
  rw [List.append_nil, none, Option.map_some, List.append_nil] at cut
  simp only [read?, Document.toJson, cut, Option.bind_eq_bind, Option.bind_some,
    taken_of_keyed h []]
  rfl

/-- The text of a document is read as the document, arranged if its keys were put in order. -/
theorem read?_toJson (h : d.Keyed (· ≠ ·)) (style : Style) :
    read? (d.toJson style) = some (if style.sortKeys then d.arranged else d) := by
  obtain ⟨indent, sortKeys⟩ := style
  cases sortKeys with
  | false => exact read?_write h indent
  | true =>
    exact (congrArg read? (Document.write_sorted indent 0 d)).trans
      (read?_write h.arranged indent)

end Json

end ProtoSchema
