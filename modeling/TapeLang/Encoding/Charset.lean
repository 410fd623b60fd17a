import TapeLang.Text.CodePoint

/-! Character sets with a byte form: how one code point is written, and how the bytes at the
start of a sequence are read as one code point or refused. -/

namespace TapeLang.Encoding

open Text

/-- The order of the two bytes of a unit. -/
inductive ByteOrder where
  | little
  | big
deriving Repr, DecidableEq

/-- A character set in which texts can be written. -/
inductive Charset where
  | utf8
  | latin1
  | ascii
  | utf16 (order : ByteOrder)
deriving Repr, DecidableEq

/-- Why bytes are refused. -/
inductive Refusal where
  | invalidStart
  | invalidContinuation
  | unexpectedEnd
  | outsideAscii
  | truncated
  | illegalEncoding
  | illegalSurrogate
  /-- A reason that only a codec of the host has. -/
  | other (reason : String)
deriving Repr, DecidableEq

/-- The wording of a refusal. -/
def Refusal.message : Refusal → String
  | .invalidStart => "invalid start byte"
  | .invalidContinuation => "invalid continuation byte"
  | .unexpectedEnd => "unexpected end of data"
  | .outsideAscii => "ordinal not in range(128)"
  | .truncated => "truncated data"
  | .illegalEncoding => "illegal encoding"
  | .illegalSurrogate => "illegal UTF-16 surrogate"
  | .other reason => reason

/-- What stands at the start of bytes: a code point, written in one byte and some more, or as
many bytes as are refused together, one and some more. -/
inductive Front where
  | point (c : CodePoint) (more : Nat)
  | refused (more : Nat) (why : Refusal)
deriving Repr, DecidableEq

namespace Utf8

/-- The bytes of a number below 0x110000. -/
def encode (n : Nat) : List UInt8 :=
  if n < 0x80 then [UInt8.ofNat n]
  else if n < 0x800 then [UInt8.ofNat (0xC0 + n / 0x40), UInt8.ofNat (0x80 + n % 0x40)]
  else if n < 0x10000 then
    [UInt8.ofNat (0xE0 + n / 0x1000), UInt8.ofNat (0x80 + n / 0x40 % 0x40),
     UInt8.ofNat (0x80 + n % 0x40)]
  else
    [UInt8.ofNat (0xF0 + n / 0x40000), UInt8.ofNat (0x80 + n / 0x1000 % 0x40),
     UInt8.ofNat (0x80 + n / 0x40 % 0x40), UInt8.ofNat (0x80 + n % 0x40)]

/-- Whether a byte continues a character. -/
def isTail (b : UInt8) : Bool := 0x80 ≤ b.toNat && b.toNat ≤ 0xBF

/-- Whether a byte may follow a first byte: some first bytes admit only a part of the
continuation bytes, so that no character has two forms and surrogates have none. -/
def mayFollow (first b : UInt8) : Bool :=
  isTail b &&
    (if first = 0xE0 then 0xA0 ≤ b.toNat
     else if first = 0xED then b.toNat ≤ 0x9F
     else if first = 0xF0 then 0x90 ≤ b.toNat
     else if first = 0xF4 then b.toNat ≤ 0x8F
     else true)

/-- The code point of a number below 0x110000. -/
def point (n more : Nat) : Front := .point (CodePoint.ofNat n) more

/-- The front of bytes. -/
def front (a : UInt8) (rest : List UInt8) : Front :=
  let x := a.toNat
  if x < 0x80 then point x 0
  else if x < 0xC2 then .refused 0 .invalidStart
  else if x < 0xE0 then
    match rest with
    | [] => .refused 0 .unexpectedEnd
    | b :: _ =>
      if mayFollow a b then point ((x - 0xC0) * 0x40 + (b.toNat - 0x80)) 1
      else .refused 0 .invalidContinuation
  else if x < 0xF0 then
    match rest with
    | [] => .refused 0 .unexpectedEnd
    | b :: rest =>
      if mayFollow a b then
        match rest with
        | [] => .refused 1 .unexpectedEnd
        | c :: _ =>
          if isTail c then
            point ((x - 0xE0) * 0x1000 + (b.toNat - 0x80) * 0x40 + (c.toNat - 0x80)) 2
          else .refused 1 .invalidContinuation
      else .refused 0 .invalidContinuation
  else if x < 0xF5 then
    match rest with
    | [] => .refused 0 .unexpectedEnd
    | b :: rest =>
      if mayFollow a b then
        match rest with
        | [] => .refused 1 .unexpectedEnd
        | c :: rest =>
          if isTail c then
            match rest with
            | [] => .refused 2 .unexpectedEnd
            | d :: _ =>
              if isTail d then
                point ((x - 0xF0) * 0x40000 + (b.toNat - 0x80) * 0x1000 +
                  (c.toNat - 0x80) * 0x40 + (d.toNat - 0x80)) 3
              else .refused 2 .invalidContinuation
          else .refused 1 .invalidContinuation
      else .refused 0 .invalidContinuation
  else .refused 0 .invalidStart

end Utf8

namespace Utf16

/-- The bytes of a unit. -/
def unitBytes (order : ByteOrder) (unit : Nat) : List UInt8 :=
  let low := UInt8.ofNat unit
  let high := UInt8.ofNat (unit / 0x100)
  match order with
  | .little => [low, high]
  | .big => [high, low]

/-- The unit of two bytes. -/
def unit (order : ByteOrder) (a b : UInt8) : Nat :=
  match order with
  | .little => b.toNat * 0x100 + a.toNat
  | .big => a.toNat * 0x100 + b.toNat

/-- The bytes of a number below 0x110000. -/
def encode (order : ByteOrder) (n : Nat) : List UInt8 :=
  if n < 0x10000 then unitBytes order n
  else
    unitBytes order (0xD800 + (n - 0x10000) / 0x400) ++
      unitBytes order (0xDC00 + (n - 0x10000) % 0x400)

/-- The front of bytes. -/
def front (order : ByteOrder) (a : UInt8) : List UInt8 → Front
  | [] => .refused 0 .truncated
  | b :: rest =>
    let u := unit order a b
    if u < 0xD800 ∨ 0xDFFF < u then .point (CodePoint.ofNat u) 1
    else if 0xDC00 ≤ u then .refused 1 .illegalEncoding
    else
      match rest with
      | c :: d :: _ =>
        let v := unit order c d
        if 0xDC00 ≤ v ∧ v ≤ 0xDFFF then
          .point (CodePoint.ofNat (0x10000 + (u - 0xD800) * 0x400 + (v - 0xDC00))) 3
        else .refused 1 .illegalSurrogate
      | rest => .refused (1 + rest.length) .unexpectedEnd

end Utf16

namespace Charset

/-- The name of a character set in messages. -/
def label : Charset → String
  | .utf8 => "utf-8"
  | .latin1 => "latin-1"
  | .ascii => "ascii"
  | .utf16 .little => "utf-16-le"
  | .utf16 .big => "utf-16-be"

/-- The bytes of a code point; none when the character set has none for it. -/
def encodePoint? (s : Charset) (c : CodePoint) : Option (List UInt8) :=
  match s with
  | .utf8 => if c.isSurrogate then none else some (Utf8.encode c.val)
  | .latin1 => if c.val ≤ 0xFF then some [UInt8.ofNat c.val] else none
  | .ascii => if c.val ≤ 0x7F then some [UInt8.ofNat c.val] else none
  | .utf16 order => if c.isSurrogate then none else some (Utf16.encode order c.val)

/-- Why a character set has no bytes for a code point. -/
def lack : Charset → String
  | .utf8 => "surrogates not allowed"
  | .latin1 => "ordinal not in range(256)"
  | .ascii => "ordinal not in range(128)"
  | .utf16 _ => "surrogates not allowed"

/-- The front of bytes that are not empty. -/
def front (s : Charset) (a : UInt8) (rest : List UInt8) : Front :=
  match s with
  | .utf8 => Utf8.front a rest
  | .latin1 => .point (CodePoint.ofNat a.toNat) 0
  | .ascii =>
    if a.toNat < 0x80 then .point (CodePoint.ofNat a.toNat) 0 else .refused 0 .outsideAscii
  | .utf16 order => Utf16.front order a rest

end Charset

end TapeLang.Encoding
