import ProtoSchema.Proofs.Lexing.Order
import ProtoSchema.Proofs.Rendering.Declaration
import ProtoSchema.Tree.Node

/-!
# Nodes in their places

Where the tokens of a rendering stand one behind the other, the nodes that they render stand
in the order in which the tree is walked through, each at the first of its tokens. `Walks L
ns` says so of all words of a language at once, and has a rule for each way languages are put
together.
-/
namespace ProtoSchema

open Rendering

/-- How a node may be written that has the position of its first token. Ranges and what is
reserved may be written as in enums, and a field as at a place where some words start other
declarations. -/
def Node.rendering : Node → Language Token
  | scalar v => scalarValue True v
  | messageLiteral m => Rendering.messageLiteral True m
  | entry e => literalEntry True e
  | list es p => starting True p (bracketed (optionValues True es))
  | messages ms p => starting True p (bracketed (messageLiterals True ms))
  | namePart p => optionNamePart True p
  | option o => optionStatement True o
  | compactOption o => Rendering.compactOption True o
  | syntaxDecl d => Rendering.syntaxDecl True d
  | importing i => importDecl True i
  | package p => packageDecl True p
  | field f => {ts | ∃ words, ts ∈ fieldDecl True words f}
  | mapField f => mapFieldDecl True f
  | tagRange r => {ts | ∃ negatives, ts ∈ Rendering.tagRange True negatives r}
  | extensionRange r => extensionRangeDecl True r
  | reserved r => {ts | ∃ negatives, ts ∈ reservedDecl True negatives r}
  | group g => groupDecl True g
  | oneof o => oneofDecl True o
  | enumValue v => enumValueDecl True v
  | enum e => enumDecl True e
  | extension e => extensionDecl True e
  | message m => messageDecl True m
  | method m => methodDecl True m
  | service s => serviceDecl True s

theorem Rendering.exists_of_starting {p : Position} {L : Language Token} {ts : List Token}
    (h : ts ∈ starting True p L) : ∃ t us, ts = t :: us ∧ t.position = p := by
  obtain ⟨t, ht, hp⟩ := h.2 trivial
  obtain ⟨us, rfl⟩ := List.head?_eq_some_iff.mp ht
  exact ⟨t, us, rfl, hp⟩

/-- A node that is written has the position of its first token. -/
theorem Node.exists_first {n : Node} {ts : List Token} (h : ts ∈ n.rendering) :
    ∃ t us, ts = t :: us ∧ t.position = n.position := by
  cases n with
  | messageLiteral m =>
    rw [rendering, messageLiteral_eq] at h
    exact exists_of_starting h
  | entry e =>
    rw [rendering, literalEntry_eq] at h
    exact exists_of_starting h
  | group g =>
    rw [rendering, groupDecl_eq] at h
    exact exists_of_starting h
  | oneof o =>
    rw [rendering, oneofDecl_eq] at h
    exact exists_of_starting h
  | extension e =>
    rw [rendering, extensionDecl_eq] at h
    exact exists_of_starting h
  | message m =>
    rw [rendering, messageDecl_eq] at h
    exact exists_of_starting h
  | field f =>
    obtain ⟨words, h⟩ := h
    exact exists_of_starting h
  | tagRange r =>
    obtain ⟨negatives, h⟩ := h
    exact exists_of_starting h
  | reserved r =>
    obtain ⟨negatives, h⟩ := h
    exact exists_of_starting h
  | _ => exact exists_of_starting h

/-- The first node is in front of the second, or begins with it at the same place. -/
def Node.InFront (n m : Node) : Prop :=
  n.position.Before m.position ∨ n.position = m.position ∧ n.BeginsWith m

/-- The tokens stand one behind the other. -/
def Increasing (ts : List Token) : Prop := ts.Pairwise fun t u => t.position.Before u.position

theorem Increasing.append {us vs : List Token} (h : Increasing (us ++ vs)) :
    Increasing us ∧ Increasing vs ∧ ∀ t ∈ us, ∀ u ∈ vs, t.position.Before u.position :=
  List.pairwise_append.mp h

/-! ## Nodes in tokens -/

/-- The nodes are written among the tokens, one behind the other. -/
structure Lies (ts : List Token) (ns : List Node) : Prop where
  written : ∀ n ∈ ns, ∃ ws ∈ n.rendering, ws <:+: ts
  ordered : ns.Pairwise Node.InFront

namespace Lies

variable {ts us vs : List Token} {n : Node} {ns ms : List Node}

theorem nil (ts : List Token) : Lies ts [] := ⟨nofun, .nil⟩

theorem exists_token (h : Lies ts ns) (hn : n ∈ ns) : ∃ t ∈ ts, t.position = n.position := by
  obtain ⟨ws, hws, part⟩ := h.written n hn
  obtain ⟨t, us, rfl, hp⟩ := Node.exists_first hws
  exact ⟨t, part.subset (by simp), hp⟩

theorem mono (h : Lies us ns) (hts : us <:+: ts) : Lies ts ns where
  written n hn := by
    obtain ⟨ws, hws, part⟩ := h.written n hn
    exact ⟨ws, hws, part.trans hts⟩
  ordered := h.ordered

/-- Nodes in front and nodes behind. -/
theorem append (inc : Increasing (us ++ vs)) (hu : Lies us ns) (hv : Lies vs ms) :
    Lies (us ++ vs) (ns ++ ms) where
  written n hn := by
    rcases List.mem_append.mp hn with hn | hn
    · exact (hu.mono (List.prefix_append us vs).isInfix).written n hn
    · exact (hv.mono (List.suffix_append us vs).isInfix).written n hn
  ordered := by
    refine List.pairwise_append.mpr ⟨hu.ordered, hv.ordered, fun n hn m hm => ?_⟩
    obtain ⟨t, ht, hp⟩ := hu.exists_token hn
    obtain ⟨u, hu, hq⟩ := hv.exists_token hm
    rw [Node.InFront, ← hp, ← hq]
    exact .inl (inc.append.2.2 t ht u hu)

/-- A node is in front of what it holds behind its first tokens. -/
theorem node (inc : Increasing (us ++ vs)) (hn : us ++ vs ∈ n.rendering) (hu : us ≠ [])
    (hv : Lies vs ns) : Lies (us ++ vs) (n :: ns) where
  written m hm := by
    rcases List.mem_cons.mp hm with rfl | hm
    · exact ⟨us ++ vs, hn, List.infix_refl _⟩
    · exact (hv.mono (List.suffix_append us vs).isInfix).written m hm
  ordered := by
    refine List.pairwise_cons.mpr ⟨fun m hm => .inl ?_, hv.ordered⟩
    obtain ⟨t, us, rfl⟩ := List.exists_cons_of_ne_nil hu
    obtain ⟨t', _, heq, hp⟩ := Node.exists_first hn
    obtain ⟨u, hu, hq⟩ := hv.exists_token hm
    rw [← hp, ← hq, ← (List.cons.inj heq).1]
    exact inc.append.2.2 t (by simp) u hu

end Lies

/-! ## Nodes in languages -/

/-- Where words of the language stand in a source, the nodes lie in them. -/
def Walks (L : Language Token) (ns : List Node) : Prop := ∀ ts ∈ L, Increasing ts → Lies ts ns

namespace Walks

variable {α : Type} {K L : Language Token} {Ls : List (Language Token)} {n : Node}
  {ns ms : List Node}

theorem leaf (L : Language Token) : Walks L [] := fun ts _ _ => .nil ts

theorem mono (h : Walks L ns) (hK : ∀ ts ∈ K, ts ∈ L) : Walks K ns :=
  fun ts hts => h ts (hK ts hts)

theorem mul (hK : Walks K ns) (hL : Walks L ms) : Walks (K * L) (ns ++ ms) := by
  rintro _ ⟨us, hu, vs, hv, rfl⟩ inc
  exact .append inc (hK us hu inc.append.1) (hL vs hv inc.append.2.1)

theorem cons (hK : Walks K ns) (hLs : Walks Ls.prod ms) :
    Walks (K :: Ls).prod (ns ++ ms) := by
  rw [List.prod_cons]
  exact hK.mul hLs

theorem skip_mul (hL : Walks L ns) : Walks (K * L) ns := (leaf K).mul hL

/-- What comes first holds no nodes. -/
theorem skip (hLs : Walks Ls.prod ns) : Walks (K :: Ls).prod ns := (leaf K).cons hLs

/-- What comes behind holds no nodes. -/
theorem last (hK : Walks K ns) : Walks (K :: Ls).prod ns := by
  have both := hK.cons (leaf Ls.prod)
  rwa [List.append_nil] at both

theorem add (hK : Walks K ns) (hL : Walks L ns) : Walks (K + L) ns :=
  fun ts hts => hts.elim (hK ts) (hL ts)

/-- A node that holds no others. -/
theorem single (hL : ∀ ts ∈ L, ts ∈ n.rendering) : Walks L [n] := by
  intro ts hts inc
  refine ⟨fun m hm => ?_, List.pairwise_singleton _ _⟩
  obtain rfl := List.mem_singleton.mp hm
  exact ⟨ts, hL ts hts, List.infix_refl ts⟩

/-- A node that holds others behind what it starts with. -/
theorem node (hK : [] ∉ K) (hL : Walks L ns)
    (hn : ∀ ts ∈ starting True n.position (K * L), ts ∈ n.rendering) :
    Walks (starting True n.position (K * L)) (n :: ns) := by
  intro ts hts inc
  have whole := hn ts hts
  obtain ⟨⟨us, hu, vs, hv, rfl⟩, -⟩ := hts
  exact .node inc whole (fun h => hK (h ▸ hu)) (hL vs hv inc.append.2.1)

theorem declaration (hK : [] ∉ K) (hLs : Walks Ls.prod ns)
    (hn : ∀ ts ∈ starting True n.position (K :: Ls).prod, ts ∈ n.rendering) :
    Walks (starting True n.position (K :: Ls).prod) (n :: ns) := by
  rw [List.prod_cons] at hn ⊢
  exact node hK hLs hn

section Lists

variable {E : α → Language Token} {N : α → List Node}

theorem prod_map (h : ∀ a, Walks (E a) (N a)) (as : List α) :
    Walks (as.map E).prod (as.flatMap N) := by
  induction as with
  | nil => exact leaf _
  | cons a as ih => exact (h a).cons ih

theorem separated (separator : TokenKind) (h : ∀ a, Walks (E a) (N a)) (as : List α) :
    Walks (Rendering.separated separator E as) (as.flatMap N) := by
  cases as with
  | nil => exact leaf _
  | cons a as => exact (h a).mul (prod_map (fun b => skip_mul (h b)) as)

theorem statements (h : ∀ a, Walks (E a) (N a)) (as : List α) :
    Walks (Rendering.statements E as) (as.flatMap N) := by
  induction as with
  | nil => exact leaf _
  | cons a as ih => exact skip ((h a).cons (last ih))

end Lists

end Walks

end ProtoSchema
