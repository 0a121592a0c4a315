import ResourceManifest.Text.Utf8
import ResourceManifest.Yaml.Fault

/-!
The characters of a YAML text. Bytes are decoded in blocks; a block with a fault gives no
characters, so the text ends before it, and whoever looks past that end meets the fault.
-/

set_option autoImplicit false

namespace ResourceManifest.Yaml

structure Source where
  chars : List Char
  /-- What lies behind the last character, if not the end of the text. -/
  fault? : Option Fault
  deriving Repr, Inhabited

namespace Source

def blockSize : Nat := 16384

def isAllowed (n : Nat) : Bool :=
  n == 0x09 || n == 0x0A || n == 0x0D || (0x20 ≤ n && n ≤ 0x7E) || n == 0x85 ||
    (0xA0 ≤ n && n ≤ 0xD7FF) || (0xE000 ≤ n && n ≤ 0xFFFD) || (0x10000 ≤ n && n ≤ 0x10FFFF)

def width? (b : UInt8) : Option Nat :=
  if b < 0x80 then some 1
  else if 0xC0 ≤ b && b < 0xE0 then some 2
  else if 0xE0 ≤ b && b < 0xF0 then some 3
  else if 0xF0 ≤ b && b < 0xF8 then some 4
  else none

def leadBits (width : Nat) (b : UInt8) : Nat :=
  b.toNat % (if width = 1 then 128 else Nat.pow 2 (7 - width))

/-- Adds continuation bytes to a value; a byte that continues nothing is reported by its index. -/
def gather : Nat → Nat → List UInt8 → Except Nat Nat
  | _, value, [] => .ok value
  | k, value, b :: r =>
    if 0x80 ≤ b && b < 0xC0 then gather (k + 1) (value * 64 + b.toNat % 64) r else .error k

def leastOfWidth : Nat → Nat
  | 2 => 0x80
  | 3 => 0x800
  | 4 => 0x10000
  | _ => 0

def character (offset : Nat) (lead : UInt8) (tail : List UInt8) : Except Fault Char :=
  let width := tail.length + 1
  match gather 1 (leadBits width lead) tail with
  | .error k => .error (.unreadable .trailingOctet (offset + k))
  | .ok value =>
    if value < leastOfWidth width then .error (.unreadable .sequenceLength offset)
    else if (0xD800 ≤ value && value ≤ 0xDFFF) || 0x10FFFF < value then
      .error (.unreadable .character offset)
    else if !isAllowed value then .error (.unreadable .controlCharacter offset)
    else .ok (Char.ofNat value)

/-- Decodes sequence by sequence: `room` bytes are left to the present block, `block` holds its
characters and `before` those of the blocks before it, both in reverse. -/
def decode : Nat → Nat → Nat → List Char → List Char → Bytes → Source
  | 0, _, _, block, before, _ => ⟨(block ++ before).reverse, none⟩
  | _ + 1, _, _, block, before, [] => ⟨(block ++ before).reverse, none⟩
  | fuel + 1, room, offset, block, before, lead :: r =>
    if room = 0 then decode fuel blockSize offset [] (block ++ before) (lead :: r)
    else
      match width? lead with
      | none => ⟨before.reverse, some (.unreadable .leadingOctet offset)⟩
      | some width =>
        let tail := r.take (width - 1)
        if tail.length + 1 < width then
          ⟨(block ++ before).reverse, some (.unreadable .incomplete offset)⟩
        else if room < width then decode fuel blockSize offset [] (block ++ before) (lead :: r)
        else
          match character offset lead tail with
          | .error f => ⟨before.reverse, some f⟩
          | .ok c =>
            decode fuel (room - width) (offset + width) (c :: block) before (r.drop (width - 1))

def ofBytes (bs : Bytes) : Source := decode (2 * bs.length + 2) blockSize 0 [] [] bs

end Source

end ResourceManifest.Yaml
