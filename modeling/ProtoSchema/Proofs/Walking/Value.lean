import ProtoSchema.Proofs.Tree.Walk

/-!
# Walking through options

The nodes of option values and options lie in order where they are written. An option in
brackets and the first part of its name stand at the same token; no other two nodes do.
-/
namespace ProtoSchema.Rendering

/-! ## Values -/

/-- The tokens of a scalar hold one node, which is at the first of them. -/
theorem walks_scalarValue (v : ScalarValue) : Walks (scalarValue True v) [.scalar v] :=
  .single fun _ => id

/-! Messages hold entries and entries hold messages, so this is one induction with a case for
each kind. -/

mutual

/-- The tokens of a message literal hold its nodes in their order, the literal itself at the
first. -/
theorem walks_messageLiteral : ∀ m : MessageLiteral, Walks (messageLiteral True m) m.nodes
  | ⟨entries, p⟩ => by
    intro ts hts inc
    have whole : ts ∈ (Node.messageLiteral ⟨entries, p⟩).rendering := hts
    rw [messageLiteral] at hts
    obtain ⟨t, us, close, rfl, -, hu⟩ := exists_bracePair hts.1
    have inside : Walks (literalEntries True entries * mark close)
        (literalEntryNodes entries) := by
      have both := (walks_literalEntries entries).mul (.leaf (mark close))
      rwa [List.append_nil] at both
    rw [MessageLiteral.nodes]
    have lies : Lies us (literalEntryNodes entries) :=
      inside us hu (List.Pairwise.of_cons inc)
    exact @Lies.node [t] us _ _ inc whole (List.cons_ne_nil t []) lies

theorem walks_literalEntries :
    ∀ es : List LiteralEntry, Walks (literalEntries True es) (literalEntryNodes es)
  | [] => .leaf _
  | e :: es => by
    rw [literalEntries, literalEntryNodes]
    exact (walks_literalEntry e).cons (.skip (.last (walks_literalEntries es)))

theorem walks_literalEntry : ∀ e : LiteralEntry, Walks (literalEntry True e) e.nodes
  | ⟨name, value, kind, p⟩ => by
    rw [literalEntry, LiteralEntry.nodes]
    apply Walks.node (n := .entry ⟨name, value, kind, p⟩) (nil_notMem_entryName kind name)
      (walks_entryValue value)
    intro ts hts
    rwa [Node.rendering, literalEntry]

/-- The nodes of the value of an entry lie behind its colon, if there is one. -/
theorem walks_entryValue : ∀ v : EntryValue, Walks (entryValue True v) v.nodes
  | .scalar v => by
    rw [entryValue, EntryValue.nodes]
    exact .skip_mul (walks_scalarValue v)
  | .message m => by
    rw [entryValue, EntryValue.nodes]
    exact .skip_mul (walks_messageLiteral m)
  | .list es p => by
    rw [entryValue, EntryValue.nodes]
    apply Walks.skip_mul
    exact .declaration (n := .list es p) (by simp) (.last (walks_optionValues es)) fun _ => id
  | .messages ms p => by
    rw [entryValue, EntryValue.nodes]
    exact .declaration (n := .messages ms p) (by simp)
      (.last (walks_messageLiterals ms)) fun _ => id

theorem walks_optionValue : ∀ v : OptionValue, Walks (optionValue True v) v.nodes
  | .scalar v => by
    rw [optionValue, OptionValue.nodes]
    exact walks_scalarValue v
  | .message m => by
    rw [optionValue, OptionValue.nodes]
    exact walks_messageLiteral m

theorem walks_optionValues :
    ∀ vs : List OptionValue, Walks (optionValues True vs) (optionValueNodes vs)
  | [] => .leaf _
  | v :: vs => by
    rw [optionValues, optionValueNodes]
    exact (walks_optionValue v).mul (walks_moreOptionValues vs)

/-- Behind the first value of a list each has a comma in front, which holds no node. -/
theorem walks_moreOptionValues :
    ∀ vs : List OptionValue, Walks (moreOptionValues True vs) (optionValueNodes vs)
  | [] => .leaf _
  | v :: vs => by
    rw [moreOptionValues, optionValueNodes]
    exact (Walks.skip_mul (walks_optionValue v)).mul (walks_moreOptionValues vs)

theorem walks_messageLiterals :
    ∀ ms : List MessageLiteral, Walks (messageLiterals True ms) (messageLiteralNodes ms)
  | [] => .leaf _
  | m :: ms => by
    rw [messageLiterals, messageLiteralNodes]
    exact (walks_messageLiteral m).mul (walks_moreMessageLiterals ms)

theorem walks_moreMessageLiterals :
    ∀ ms : List MessageLiteral, Walks (moreMessageLiterals True ms) (messageLiteralNodes ms)
  | [] => .leaf _
  | m :: ms => by
    rw [moreMessageLiterals, messageLiteralNodes]
    exact (Walks.skip_mul (walks_messageLiteral m)).mul (walks_moreMessageLiterals ms)

end

/-! ## Options -/

/-- The parts of a name lie in order, with points between them. -/
theorem walks_optionName (parts : List OptionNamePart) :
    Walks (optionName True parts) (parts.map .namePart) := by
  rw [List.map_eq_flatMap]
  exact .separated .dot (fun part => .single (n := .namePart part) fun _ => id) parts

/-- The word in front belongs to the option itself; the name and the value come behind it. -/
theorem walks_optionStatement (o : OptionStatement) :
    Walks (optionStatement True o) o.nodes :=
  .declaration (n := .option o) (by simp)
    ((walks_optionName o.name).cons (.skip (.last (walks_optionValue o.value)))) fun _ => id

/-- The name of an option starts where its first part does. -/
theorem exists_firstPart {parts : List OptionNamePart} {ts : List Token}
    (h : ts ∈ optionName True parts) :
    ∃ part more t us, parts = part :: more ∧ ts = t :: us ∧ t.position = part.position := by
  cases parts with
  | nil => cases h
  | cons part more =>
    obtain ⟨us, hu, vs, -, rfl⟩ := h
    obtain ⟨t, us, rfl, hp⟩ := exists_of_starting hu
    exact ⟨part, more, t, us ++ vs, rfl, rfl, hp⟩

/-- An option in brackets starts where the first part of its name does. -/
theorem walks_compactOption (o : CompactOption) : Walks (compactOption True o) o.nodes := by
  intro ts hts inc
  have parts : Lies ts (o.name.map .namePart ++ o.value.nodes) :=
    ((walks_optionName o.name).cons (.skip (.last (walks_optionValue o.value)))) ts hts.1 inc
  obtain ⟨t, us, heq, hp⟩ := exists_of_starting hts
  obtain ⟨name, hname, vs, -, rfl⟩ := hts.1
  obtain ⟨part, more, t', us', hparts, rfl, hpart⟩ := exists_firstPart hname
  obtain rfl := (List.cons.inj heq).1
  refine ⟨fun m hm => ?_, List.pairwise_cons.mpr ⟨fun m hm => ?_, parts.ordered⟩⟩
  · rcases List.mem_cons.mp hm with rfl | hm
    · exact ⟨_, hts, List.infix_refl _⟩
    · exact parts.written m hm
  · -- The first part stands where the option does, and whatever is behind it is behind both.
    rw [hparts, List.map_cons, List.cons_append] at hm
    have ordered := parts.ordered
    rw [hparts, List.map_cons, List.cons_append, List.pairwise_cons] at ordered
    rcases List.mem_cons.mp hm with rfl | hm
    · exact .inr ⟨hp.symm.trans hpart, o, part, rfl, by rw [hparts]; rfl, rfl⟩
    · rcases ordered.1 m hm with before | ⟨-, _, _, h, -⟩
      · left
        rwa [show (Node.compactOption o).position = part.position from hp.symm.trans hpart]
      · cases h

/-- Brackets and commas hold no nodes. -/
theorem walks_compactOptions (os : List CompactOption) :
    Walks (compactOptions True os) (compactNodes os) := by
  cases os with
  | nil => exact .leaf _
  | cons o os => exact .skip (.last (.separated .comma walks_compactOption (o :: os)))

end ProtoSchema.Rendering
