/-!
# UTF-8

Bytes to characters. A text is refused as a whole at its first bad sequence, which is described by
where it starts and how many of its bytes could still begin a character.
-/

namespace FlowGraph.Text.Utf8

set_option autoImplicit false

/-- The first bytes that are no character. -/
structure Flaw where
  /-- The number of bytes in front, all of them good. -/
  start : Nat
  /-- How many bytes are refused together; `none` if the input ends too early. -/
  length : Option Nat
deriving DecidableEq, Repr

def Flaw.message (f : Flaw) : String :=
  match f.length with
  | some n => "invalid utf-8 sequence of " ++ Nat.repr n ++ " bytes from index " ++ Nat.repr f.start
  | none => "incomplete utf-8 byte sequence from index " ++ Nat.repr f.start

/-- The number of bytes of a character that starts with this byte; zero if none does. -/
def width (first : UInt8) : Nat :=
  if first < 0x80 then 1
  else if first < 0xc2 then 0
  else if first < 0xe0 then 2
  else if first < 0xf0 then 3
  else if first < 0xf5 then 4
  else 0

def isContinuation (b : UInt8) : Bool := 0x80 ≤ b && b ≤ 0xbf

/-- Whether `second` may follow `first`: no character is written longer than needed, none is a
surrogate, none lies beyond the last code point. -/
def mayFollow (first second : UInt8) : Bool :=
  if first = 0xe0 then 0xa0 ≤ second && second ≤ 0xbf
  else if first = 0xed then 0x80 ≤ second && second ≤ 0x9f
  else if first = 0xf0 then 0x90 ≤ second && second ≤ 0xbf
  else if first = 0xf4 then 0x80 ≤ second && second ≤ 0x8f
  else isContinuation second

def payload (b : UInt8) : Nat := b.toNat % 0x40

/-- Read bytes of which the first has position `start`. -/
def decodeFrom (start : Nat) : List UInt8 → Except Flaw (List Char)
  | [] => .ok []
  | a :: bytes =>
    match width a, bytes with
    | 1, bytes => do
      let rest ← decodeFrom (start + 1) bytes
      return Char.ofNat a.toNat :: rest
    | 2, b :: bytes =>
      if mayFollow a b then do
        let rest ← decodeFrom (start + 2) bytes
        return Char.ofNat (a.toNat % 0x20 * 0x40 + payload b) :: rest
      else .error ⟨start, some 1⟩
    | 3, b :: c :: bytes =>
      if !mayFollow a b then .error ⟨start, some 1⟩
      else if !isContinuation c then .error ⟨start, some 2⟩
      else do
        let rest ← decodeFrom (start + 3) bytes
        return Char.ofNat ((a.toNat % 0x10 * 0x40 + payload b) * 0x40 + payload c) :: rest
    | 4, b :: c :: d :: bytes =>
      if !mayFollow a b then .error ⟨start, some 1⟩
      else if !isContinuation c then .error ⟨start, some 2⟩
      else if !isContinuation d then .error ⟨start, some 3⟩
      else do
        let rest ← decodeFrom (start + 4) bytes
        return Char.ofNat
          (((a.toNat % 0x8 * 0x40 + payload b) * 0x40 + payload c) * 0x40 + payload d) :: rest
    | 0, _ => .error ⟨start, some 1⟩
    | _, b :: c :: _ =>
      if !mayFollow a b then .error ⟨start, some 1⟩
      else if !isContinuation c then .error ⟨start, some 2⟩
      else .error ⟨start, none⟩
    | _, [b] => if mayFollow a b then .error ⟨start, none⟩ else .error ⟨start, some 1⟩
    | _, [] => .error ⟨start, none⟩

def decode (bytes : List UInt8) : Except Flaw (List Char) := decodeFrom 0 bytes

end FlowGraph.Text.Utf8
