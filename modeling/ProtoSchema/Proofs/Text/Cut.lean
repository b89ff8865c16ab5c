import ProtoSchema.Proofs.Text.Utf8

/-!
# Bytes that are cut

Bytes may be decoded as a whole or piece by piece. The texts agree just where no cut goes
through the bytes of a character: a cut character is no UTF-8 on either side, so its bytes are
kept one by one.
-/
namespace ProtoSchema.Utf8

variable {a b x y p q : List UInt8} {c : Char} {n value : ℕ}

/-- The bytes of a character start in `a` and end in `b`. -/
def Straddles (a b : List UInt8) : Prop :=
  ∃ p x y q c, a = p ++ x ∧ b = y ++ q ∧ x ≠ [] ∧ y ≠ [] ∧ x ++ y = encodeChar c

theorem Straddles.append_left (h : Straddles a b) (p : List UInt8) :
    Straddles (p ++ a) b := by
  obtain ⟨p', x, y, q, c, rfl, rfl, hx, hy, hc⟩ := h
  exact ⟨p ++ p', x, y, q, c, by simp, rfl, hx, hy, hc⟩

/-! ## Sequences of several bytes -/

/-- A byte that may stand in a sequence behind its first. -/
def IsTail (b : UInt8) : Prop := 0x80 ≤ b.toNat ∧ b.toNat < 0xC0

theorem Form.tails {b : UInt8} {bytes : List UInt8} (h : Form (b :: bytes) value) :
    0xC0 ≤ b.toNat ∧ ∀ t ∈ bytes, IsTail t := by
  unfold IsTail
  cases h <;> grind

/-- A character of several bytes is in its form. -/
theorem exists_form_of_cut (hx : x ≠ []) (hy : y ≠ []) (h : x ++ y = encodeChar c) :
    ∃ b x', x = b :: x' ∧ Form (b :: (x' ++ y)) c.val.toNat := by
  obtain ⟨b, x, rfl⟩ := List.exists_cons_of_ne_nil hx
  refine ⟨b, x, rfl, ?_⟩
  have high : 0x80 ≤ c.val.toNat := by
    by_contra low
    rw [encodeChar_ascii (Nat.lt_of_not_le low)] at h
    simp [hy] at h
  rw [← List.cons_append, h]
  exact form_encodeChar c high

theorem IsTail.not_lead {b : UInt8} (h : IsTail b) : lead? b = none := by
  rw [Option.eq_none_iff_forall_ne_some]
  intro l hl
  have := (lead?_range hl).1
  have := h.2
  omega

/-- A byte that starts no sequence is kept. -/
theorem decode_tails (h : ∀ t ∈ y, IsTail t) :
    ∃ strays, strays.length = y.length ∧ decode (y ++ q) = strays ++ decode q := by
  induction y with
  | nil => exact ⟨[], rfl, rfl⟩
  | cons t y ih =>
    obtain ⟨ht, hy⟩ := List.forall_mem_cons.mp h
    obtain ⟨strays, hlength, htext⟩ := ih hy
    have high : 0x80 ≤ t := UInt8.le_iff_toNat_le.mpr ht.1
    have broken : sequence t (y ++ q) = .error ⟨0, .startByte⟩ := by
      rw [sequence, ht.not_lead]
    refine ⟨.stray ⟨t, high⟩ :: strays, by simp [hlength], ?_⟩
    rw [List.cons_append, decode, dif_pos high]
    simp only [broken, htext, List.cons_append]

/-! ## Decoding piece by piece -/

/-- A sequence that ends in `rest` is read there, whatever follows. -/
theorem sequence_append {b : UInt8} {rest : List UInt8} (h : sequence b rest = .ok (c, n))
    (more : List UInt8) : sequence b (rest ++ more) = .ok (c, n) ∧ n ≤ rest.length := by
  obtain ⟨bytes, rest, value, rfl, rfl, form, rfl⟩ := exists_form h
  rw [List.append_assoc]
  exact ⟨form.sequence, by simp⟩

/-- A sequence that is read only where `more` follows goes on there. -/
theorem straddles_of_sequence {b : UInt8} {rest more : List UInt8} {e : Broken}
    (h : sequence b rest = .error e) (h' : sequence b (rest ++ more) = .ok (c, n)) :
    Straddles (b :: rest) more := by
  obtain ⟨bytes, behind, value, heq, rfl, form, rfl⟩ := exists_form h'
  rcases List.append_eq_append_iff.mp heq with ⟨y, rfl, rfl⟩ | ⟨x, rfl, rfl⟩
  · by_cases hy : y = []
    · -- All of the sequence stands in front of the cut.
      rw [hy, List.append_nil] at form
      have read : sequence b (rest ++ []) = .ok _ := form.sequence
      simp [h] at read
    · exact ⟨[], b :: rest, y, behind, _, rfl, rfl, List.cons_ne_nil _ _, hy,
        form.encodeChar_eq.symm⟩
  · rw [form.sequence] at h
    cases h

/-- Bytes may be decoded in two parts if no character straddles the cut. -/
theorem decode_append (h : ¬Straddles a b) : decode (a ++ b) = decode a ++ decode b := by
  fun_induction decode a with
  | case1 => rfl
  | case2 first rest hb c n hs ih =>
    obtain ⟨whole, hn⟩ := sequence_append hs b
    have cut : ¬Straddles (rest.drop n) b := by
      intro hcut
      have := hcut.append_left (first :: rest.take n)
      rw [List.cons_append, List.take_append_drop] at this
      exact h this
    rw [List.cons_append, decode, dif_pos hb]
    simp only [whole, List.drop_append_of_le_length hn, ih cut, List.cons_append]
  | case3 first rest hb e hs ih =>
    have cut : ¬Straddles rest b := fun hcut => h (hcut.append_left [first])
    rw [List.cons_append, decode, dif_pos hb]
    rcases hwhole : sequence first (rest ++ b) with e' | ⟨c, n⟩
    · simp only [ih cut, List.cons_append]
    · exact absurd (straddles_of_sequence hs hwhole) h
  | case4 first rest hb ih =>
    have cut : ¬Straddles rest b := fun hcut => h (hcut.append_left [first])
    rw [List.cons_append, decode, dif_neg hb, ih cut, List.cons_append]

/-- Nothing goes over a cut in front of a byte that starts a sequence. -/
theorem not_straddles_of_head {first : UInt8} {rest : List UInt8} (h : ¬IsTail first) :
    ¬Straddles a (first :: rest) := by
  rintro ⟨p, x, y, q, c, rfl, hb, hx, hy, hc⟩
  obtain ⟨t, y, rfl⟩ := List.exists_cons_of_ne_nil hy
  obtain ⟨rfl, -⟩ : first = t ∧ rest = y ++ q := List.cons.inj hb
  obtain ⟨b, x', rfl, form⟩ := exists_form_of_cut hx hy hc
  exact h (form.tails.2 first (by simp))

/-- A character that is cut comes apart into two texts or more. -/
theorem length_decode_lt (h : Straddles a b) :
    (decode (a ++ b)).length < (decode a).length + (decode b).length := by
  obtain ⟨p, x, y, q, c, rfl, rfl, hx, hy, hc⟩ := h
  obtain ⟨first, x', rfl, form⟩ := exists_form_of_cut hx hy hc
  obtain ⟨hfirst, htails⟩ := form.tails
  have head : ¬IsTail first := fun h => absurd h.2 (Nat.not_lt.mpr hfirst)
  obtain ⟨strays, hlength, hstrays⟩ :=
    decode_tails (y := y) (q := q) fun t ht => htails t (List.mem_append_right x' ht)
  have whole : decode ((p ++ first :: x') ++ (y ++ q)) = decode p ++ .char c :: decode q := by
    rw [← decode_encodeChar, ← hc]
    simpa using decode_append (not_straddles_of_head head) (a := p)
      (b := first :: (x' ++ y ++ q))
  have left : decode (p ++ first :: x') = decode p ++ decode (first :: x') :=
    decode_append (not_straddles_of_head head)
  have some_left : 0 < (decode (first :: x')).length := by
    rw [decode]
    split
    · split <;> simp
    · simp
  have some_right : 0 < y.length := List.length_pos_iff.mpr hy
  rw [whole, left, hstrays]
  simp only [List.length_append, List.length_cons, hlength]
  omega

/-- A cut never makes the decoded text shorter. -/
theorem length_decode_append_le (a b : List UInt8) :
    (decode (a ++ b)).length ≤ (decode a).length + (decode b).length := by
  by_cases h : Straddles a b
  · exact Nat.le_of_lt (length_decode_lt h)
  · exact Nat.le_of_eq (by rw [decode_append h, List.length_append])

theorem length_decode_flatten_le (pieces : List (List UInt8)) :
    (decode pieces.flatten).length ≤ (pieces.map decode).flatten.length := by
  induction pieces with
  | nil => simp [decode]
  | cons a pieces ih =>
    have := length_decode_append_le a pieces.flatten
    simp only [List.map_cons, List.flatten_cons, List.length_append]
    omega

/-- No cut between the pieces goes through a character. -/
def Whole (pieces : List (List UInt8)) : Prop :=
  ∀ left right, pieces = left ++ right → ¬Straddles left.flatten right.flatten

theorem Whole.tail {a : List UInt8} {pieces : List (List UInt8)} (h : Whole (a :: pieces)) :
    Whole pieces := by
  rintro left right rfl hcut
  exact h (a :: left) right rfl (hcut.append_left a)

/-- Pieces are decoded to the text of the whole just where no cut goes through a character. -/
theorem decode_flatten_iff (pieces : List (List UInt8)) :
    (pieces.map decode).flatten = decode pieces.flatten ↔ Whole pieces := by
  constructor
  · rintro h left right rfl hcut
    have shorter := length_decode_lt hcut
    have := length_decode_flatten_le left
    have := length_decode_flatten_le right
    have whole := congrArg List.length h
    simp only [List.map_append, List.flatten_append, List.length_append] at whole
    omega
  · intro h
    induction pieces with
    | nil => simp [decode]
    | cons a pieces ih =>
      have cut : ¬Straddles a pieces.flatten := by
        simpa using h [a] pieces rfl
      rw [List.map_cons, List.flatten_cons, List.flatten_cons, decode_append cut, ih h.tail]

/-! ## The bytes of texts -/

theorem encode_append (x y : Text) : encode (x ++ y) = encode x ++ encode y := by
  induction x with
  | nil => rfl
  | cons g x ih => cases g <;> simp [encode, ih]

/-- No byte is lost in decoding piece by piece. -/
theorem encode_flatten (pieces : List (List UInt8)) :
    encode (pieces.map decode).flatten = pieces.flatten := by
  induction pieces with
  | nil => rfl
  | cons a pieces ih =>
    rw [List.map_cons, List.flatten_cons, encode_append, encode_decode, ih, List.flatten_cons]

end ProtoSchema.Utf8
