import ProxyCache.Python.Text
import Mathlib.Data.List.SplitBy

/-!
# Percent-decoding

`urllib.parse.unquote`, which the ASGI server applies to a request path, with
`bytes.decode("utf-8", "replace")`.
-/

namespace ProxyCache.Python

/-! ## UTF-8 -/

/-- How many bytes follow the first byte of a sequence; `none` if none begins
with it. -/
def continuations (b : UInt8) : Option ℕ :=
  if b < 0x80 then some 0
  else if b < 0xc2 then none
  else if b < 0xe0 then some 1
  else if b < 0xf0 then some 2
  else if b < 0xf5 then some 3
  else none

/-- The byte may stand behind the first one of a sequence. -/
def isSecondByte (b₀ b : UInt8) : Bool :=
  if b₀ = 0xe0 then 0xa0 ≤ b && b ≤ 0xbf
  else if b₀ = 0xed then 0x80 ≤ b && b ≤ 0x9f
  else if b₀ = 0xf0 then 0x90 ≤ b && b ≤ 0xbf
  else if b₀ = 0xf4 then 0x80 ≤ b && b ≤ 0x8f
  else 0x80 ≤ b && b ≤ 0xbf

def isContinuation (b : UInt8) : Bool := 0x80 ≤ b && b ≤ 0xbf

/-- The bits that the first byte of a sequence contributes. -/
def leadBits (b : UInt8) : ℕ → ℕ
  | 0 => b.toNat
  | 1 => b.toNat % 32
  | 2 => b.toNat % 16
  | _ => b.toNat % 8

/-- `U+FFFD`. -/
def replacement : Char := Char.ofNat 0xfffd

/-- What is pending while a sequence is read: its first byte, the bits so far,
whether the second byte is next, and how many bytes are missing. -/
structure Pending where
  lead : UInt8
  bits : ℕ
  second : Bool
  missing : ℕ

/-- The byte continues the sequence. -/
def Pending.accepts (p : Pending) (b : UInt8) : Bool :=
  if p.second then isSecondByte p.lead b else isContinuation b

/-- A byte that begins something new. -/
def beginByte (b : UInt8) : Str × Option Pending :=
  match continuations b with
  | none => ([replacement], none)
  | some 0 => ([Char.ofNat b.toNat], none)
  | some (n + 1) => ([], some ⟨b, leadBits b (n + 1), true, n + 1⟩)

/-- One byte. A sequence that it does not continue is replaced as a whole. -/
def decodeByte (pending : Option Pending) (b : UInt8) : Str × Option Pending :=
  match pending with
  | none => beginByte b
  | some p =>
    if p.accepts b then
      let bits := p.bits * 64 + b.toNat % 64
      if p.missing = 1 then ([Char.ofNat bits], none)
      else ([], some { p with bits, second := false, missing := p.missing - 1 })
    else
      let (text, pending) := beginByte b
      (replacement :: text, pending)

def decodeBytes : Option Pending → Bytes → Str
  | none, [] => []
  | some _, [] => [replacement]
  | pending, b :: bytes =>
    let (text, pending) := decodeByte pending b
    text ++ decodeBytes pending bytes

/-- `bytes.decode("utf-8", "replace")`. -/
def decodeUtf8 (bytes : Bytes) : Str := decodeBytes none bytes

/-! ## Percent-decoding -/

def hexValue (c : Char) : Option ℕ :=
  if c.isDigit then some (c.toNat - 48)
  else if 'a' ≤ c && c ≤ 'f' then some (c.toNat - 87)
  else if 'A' ≤ c && c ≤ 'F' then some (c.toNat - 55)
  else none

/-- `unquote_to_bytes` of an ASCII text. -/
def unquoteToBytes : Str → Bytes
  | [] => []
  | '%' :: c :: d :: rest =>
    match hexValue c, hexValue d with
    | some h, some l => UInt8.ofNat (16 * h + l) :: unquoteToBytes rest
    | _, _ => 0x25 :: unquoteToBytes (c :: d :: rest)
  | c :: rest => UInt8.ofNat c.toNat :: unquoteToBytes rest

/-- `unquote`: the ASCII parts are decoded, one by one. -/
def unquote (text : Str) : Str :=
  (text.splitBy fun c d => isAscii c == isAscii d).flatMap fun part =>
    if part.all isAscii then decodeUtf8 (unquoteToBytes part) else part

example : unquote ("/a%20b/%C3%A9%2f%zz%".toList) = "/a b/é/%zz%".toList := by decide +kernel

end ProxyCache.Python
