import ProtoSchema.Text.Basic

/-!
# UTF-8

Texts and the bytes they stand for. `encode` writes every character as UTF-8 and every stray
byte as itself; `decode` reads any bytes at all and keeps the ones outside every UTF-8
sequence as stray bytes. `decodeStrict` refuses such bytes and says where the first of them
stands.
-/
namespace ProtoSchema.Utf8

/-- Why bytes are no UTF-8. -/
inductive Fault where
  | startByte
  | continuationByte
  | endOfData
  deriving DecidableEq, Repr

/-- What the first byte of a sequence of several bytes announces: how many bytes follow, the
least and the greatest byte that may follow it directly, and the high bits of the code
point. -/
structure Lead where
  tails : Nat
  low : UInt8
  high : UInt8
  bits : Nat
  deriving Repr

/-- The sequences of several bytes by their first byte. The bounds on the second byte leave
out overlong forms, surrogates and everything above U+10FFFF. -/
def lead? (b : UInt8) : Option Lead :=
  if b < 0xC2 then none
  else if b < 0xE0 then some ⟨1, 0x80, 0xBF, b.toNat - 0xC0⟩
  else if b = 0xE0 then some ⟨2, 0xA0, 0xBF, 0⟩
  else if b = 0xED then some ⟨2, 0x80, 0x9F, 0xD⟩
  else if b < 0xF0 then some ⟨2, 0x80, 0xBF, b.toNat - 0xE0⟩
  else if b = 0xF0 then some ⟨3, 0x90, 0xBF, 0⟩
  else if b < 0xF4 then some ⟨3, 0x80, 0xBF, b.toNat - 0xF0⟩
  else if b = 0xF4 then some ⟨3, 0x80, 0x8F, 4⟩
  else none

/-- A sequence that breaks off: how many of the following bytes still fitted, and what was
wrong after them. -/
structure Broken where
  fitting : Nat
  fault : Fault
  deriving DecidableEq, Repr

/-- Read `n` more bytes of a sequence, the first of them between `low` and `high` and the
others continuation bytes; each adds six bits. -/
def tail (low high : UInt8) (bits : Nat) : Nat → List UInt8 → Except Broken Nat
  | 0, _ => .ok bits
  | _ + 1, [] => .error ⟨0, .endOfData⟩
  | n + 1, b :: rest =>
    if low ≤ b ∧ b ≤ high then
      match tail 0x80 0xBF (bits * 64 + (b.toNat - 0x80)) n rest with
      | .ok value => .ok value
      | .error e => .error { e with fitting := e.fitting + 1 }
    else .error ⟨0, .continuationByte⟩

/-- The character that starts with the byte `b ≥ 0x80`, with the number of bytes after `b`
that belong to it. -/
def sequence (b : UInt8) (rest : List UInt8) : Except Broken (Char × Nat) :=
  match lead? b with
  | none => .error ⟨0, .startByte⟩
  | some l =>
    (tail l.low l.high l.bits l.tails rest).map fun code => (Char.ofNat code, l.tails)

/-- The UTF-8 bytes of a character. -/
def encodeChar (c : Char) : List UInt8 := String.utf8EncodeChar c

/-- The bytes that a text stands for. -/
def encode : Text → List UInt8
  | [] => []
  | .char c :: rest => encodeChar c ++ encode rest
  | .stray b :: rest => b.val :: encode rest

/-- The text that stands for the given bytes: a byte that starts no UTF-8 sequence is a stray
byte, and reading goes on with the byte after it. -/
def decode : List UInt8 → Text
  | [] => []
  | b :: rest =>
    if h : 0x80 ≤ b then
      match sequence b rest with
      | .ok (c, n) => .char c :: decode (rest.drop n)
      | .error _ => .stray ⟨b, h⟩ :: decode rest
    else .char (Char.ofNat b.toNat) :: decode rest
termination_by bytes => bytes.length

/-- The first place at which bytes are no UTF-8: its offset, the bytes there, the longest
beginning of a sequence among them and at least one, and the reason. -/
structure Error where
  offset : Nat
  bytes : List UInt8
  fault : Fault
  deriving DecidableEq, Repr

/-- Read bytes that stand at `offset` in a larger whole. -/
def decodeFrom (offset : Nat) : List UInt8 → Except Error (List Char)
  | [] => .ok []
  | b :: rest =>
    if 0x80 ≤ b then
      match sequence b rest with
      | .ok (c, n) => (decodeFrom (offset + 1 + n) (rest.drop n)).map (c :: ·)
      | .error e => .error ⟨offset, b :: rest.take e.fitting, e.fault⟩
    else (decodeFrom (offset + 1) rest).map (Char.ofNat b.toNat :: ·)
termination_by bytes => bytes.length

/-- Read bytes that must be UTF-8 throughout. -/
def decodeStrict (bytes : List UInt8) : Except Error (List Char) := decodeFrom 0 bytes

/-- The wording of a reason. -/
def Fault.message : Fault → String
  | .startByte => "invalid start byte"
  | .continuationByte => "invalid continuation byte"
  | .endOfData => "unexpected end of data"

/-- A byte in two digits, in lower case. -/
private def lowerHex (b : UInt8) : String :=
  String.ofList [Nat.digitChar (b.toNat / 16), Nat.digitChar (b.toNat % 16)]

/-- One broken byte is named; several are given by their range of offsets. -/
def Error.message (e : Error) : String :=
  match e.bytes with
  | [b] =>
    s!"'utf-8' codec can't decode byte 0x{lowerHex b} in position {e.offset}: " ++
      e.fault.message
  | bytes =>
    let last := e.offset + bytes.length - 1
    s!"'utf-8' codec can't decode bytes in position {e.offset}-{last}: {e.fault.message}"

end ProtoSchema.Utf8
