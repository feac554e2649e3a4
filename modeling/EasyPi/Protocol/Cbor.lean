/-
# CBOR

`packages/protocol/src/cbor/`: the strict, definite-length subset of CBOR in
which messages are written. Values are those of JavaScript, as trees: the
check for cycles has no counterpart. Strings and their UTF-8 coding are
parameters (`Text`); a string may have no coding, as one with a lone
surrogate. An object has its properties in the order of `Object.keys`, array
indices first.

The writer passes on the bytes written so far, and the reader those that are
left. `readItem` counts the levels that `maxDepth` allows instead of the depth.
-/
import Mathlib.Order.WithBot
import EasyPi.Protocol.Framing

namespace EasyPi.Protocol

def defaultMaxCborByteLength : ℕ := 16 * 1024 * 1024

def defaultMaxCborContainerLength : ℕ := 1000000

def defaultMaxCborDepth : ℕ := 64

def maxConfiguredDepth : ℕ := 512

structure CborOptions where
  maxByteLength : Option Double := none
  maxContainerLength : Option Double := none
  maxDepth : Option Double := none

structure ResolvedCborOptions where
  maxByteLength : ℕ
  maxContainerLength : ℕ
  maxDepth : ℕ

/-- `resolveLimit` with a default. -/
def resolveOption (name : String) (value : Option Double) (default_ maximum : ℕ) : Except String ℕ :=
  match value with
  | some value => resolveLimit name value maximum
  | none => .ok default_

def resolveOptions (options : CborOptions) : Except String ResolvedCborOptions := do
  let maxByteLength ← resolveOption "maxByteLength" options.maxByteLength
    defaultMaxCborByteLength maxUint32
  let maxContainerLength ← resolveOption "maxContainerLength" options.maxContainerLength
    defaultMaxCborContainerLength maxUint32
  let maxDepth ← resolveOption "maxDepth" options.maxDepth defaultMaxCborDepth maxConfiguredDepth
  return { maxByteLength, maxContainerLength, maxDepth }

/-- The strings of the language: UTF-8 of a string, the string of well-formed
UTF-8, and the array index that a key is. -/
structure Text (σ : Type) where
  encode : σ → Bytes
  decode : Bytes → Option σ
  arrayIndex : σ → Option ℕ

/-- A value of the language that is no cyclic structure. -/
inductive Value (σ : Type) where
  | undefined
  | null
  | boolean (b : Bool)
  | number (n : Double)
  | string (s : σ)
  | bytes (b : Bytes)
  | array (items : List (Value σ))
  | object (properties : List (σ × Value σ))
  | other (typeof : String)

variable {σ : Type}

/-- `value === undefined`. -/
def Value.isUndefined : Value σ → Bool
  | .undefined => true
  | _ => false

/-! ### Encoding -/

def write (maxByteLength : ℕ) (bytes out : Bytes) : Except String Bytes :=
  if out.length + bytes.length > maxByteLength then
    .error s!"CBOR byte length exceeds configured limit of {maxByteLength}"
  else .ok (out ++ bytes)

def writeByte (maxByteLength value : ℕ) (out : Bytes) : Except String Bytes := write maxByteLength [UInt8.ofNat value] out

def writeUint64 (maxByteLength value : ℕ) (out : Bytes) : Except String Bytes := do
  let high := value / 2 ^ 32
  let low := value - high * 2 ^ 32
  let out ← write maxByteLength (uint32Bytes high) out
  write maxByteLength (uint32Bytes low) out

def writeFloat64 (maxByteLength : ℕ) (value : Double) (out : Bytes) : Except String Bytes :=
  write maxByteLength (0xfb :: value.bytes) out

def writeArgument (maxByteLength majorType value : ℕ) (out : Bytes) : Except String Bytes := do
  let initial := majorType <<< 5
  if value < 24 then writeByte maxByteLength (initial ||| value) out
  else if value ≤ 0xff then
    let out ← writeByte maxByteLength (initial ||| 24) out
    writeByte maxByteLength value out
  else if value ≤ 0xffff then
    let out ← writeByte maxByteLength (initial ||| 25) out
    write maxByteLength (uint16Bytes value) out
  else if value ≤ maxUint32 then
    let out ← writeByte maxByteLength (initial ||| 26) out
    write maxByteLength (uint32Bytes value) out
  else
    let out ← writeByte maxByteLength (initial ||| 27) out
    writeUint64 maxByteLength value out

section
variable [DecidableEq σ] (text : Text σ) (options : ResolvedCborOptions)

def encodeText (value : σ) (out : Bytes) : Except String Bytes :=
  let bytes := text.encode value
  let limit := options.maxByteLength
  if bytes.length > limit then
    .error s!"CBOR text string length exceeds configured limit of {limit}"
  else if text.decode bytes ≠ some value then
    .error "CBOR text strings must contain valid Unicode scalar values"
  else do
    let out ← writeArgument options.maxByteLength 3 bytes.length out
    write options.maxByteLength bytes out

def encodeNumber (value : Double) (out : Bytes) : Except String Bytes :=
  if !value.isFinite then .error "CBOR numbers must be finite"
  else
    match value.toInt? with
    | some n =>
      if value = .negZero then writeFloat64 options.maxByteLength value out
      else if !value.isSafeInteger then
        .error "CBOR integers must be safe JavaScript integers"
      else if 0 ≤ n then writeArgument options.maxByteLength 0 n.toNat out
      else writeArgument options.maxByteLength 1 (-1 - n).toNat out
    | none => writeFloat64 options.maxByteLength value out

def encodeBytes (value : Bytes) (out : Bytes) : Except String Bytes :=
  let limit := options.maxByteLength
  if value.length > limit then
    .error s!"CBOR byte string length exceeds configured limit of {limit}"
  else do
    let out ← writeArgument options.maxByteLength 2 value.length out
    write options.maxByteLength value out

def encodeContainer (kind : String) (majorType length : ℕ) (out : Bytes) : Except String Bytes :=
  let limit := options.maxContainerLength
  if length > limit then .error s!"CBOR {kind} length exceeds configured limit of {limit}"
  else writeArgument options.maxByteLength majorType length out

mutual
def encodeValue (depth : ℕ) (value : Value σ) (out : Bytes) : Except String Bytes :=
  let limit := options.maxDepth
  if depth > limit then .error s!"CBOR nesting depth exceeds configured limit of {limit}"
  else
    match value with
    | .null => writeByte options.maxByteLength 0xf6 out
    | .boolean b => writeByte options.maxByteLength (if b then 0xf5 else 0xf4) out
    | .number n => encodeNumber options n out
    | .string s => encodeText text options s out
    | .bytes b => encodeBytes options b out
    | .array items => do
      let out ← encodeContainer options "array" 4 items.length out
      encodeItems (depth + 1) items out
    | .object properties => do
      let entries := properties.filter fun p => !p.2.isUndefined
      let out ← encodeContainer options "map" 5 entries.length out
      encodeEntries (depth + 1) properties out
    | .undefined => .error "Unsupported CBOR value type: undefined"
    | .other typeof => .error s!"Unsupported CBOR value type: {typeof}"

def encodeItems (depth : ℕ) (items : List (Value σ)) (out : Bytes) : Except String Bytes :=
  match items with
  | [] => .ok out
  | .undefined :: _ => .error "CBOR arrays must not contain holes or undefined values"
  | item :: items => do
    let out ← encodeValue depth item out
    encodeItems depth items out

/-- The entries: the properties that are not `undefined`. -/
def encodeEntries (depth : ℕ) (properties : List (σ × Value σ)) (out : Bytes) : Except String Bytes :=
  match properties with
  | [] => .ok out
  | (_, .undefined) :: properties => encodeEntries depth properties out
  | (key, value) :: properties => do
    let out ← encodeText text options key out
    let out ← encodeValue depth value out
    encodeEntries depth properties out
end

end

def encodeCbor [DecidableEq σ] (text : Text σ) (value : Value σ) (options : CborOptions) :
    Except String Bytes := do
  let resolved ← resolveOptions options
  encodeValue text resolved 0 value []

/-! ### Decoding -/

/-- A reader takes bytes from those that are left. -/
def Reader (α : Type) : Type := Bytes → Except String (α × Bytes)

namespace Reader

variable {α β : Type}

protected def bind (x : Reader α) (f : α → Reader β) : Reader β := fun bytes =>
  match x bytes with
  | .ok (a, rest) => f a rest
  | .error message => .error message

instance : Monad Reader where
  pure a := fun bytes => .ok (a, bytes)
  bind := Reader.bind

/-- `throw new CborError(message)`. -/
def fail (message : String) : Reader α := fun _ => .error message

end Reader

def readByte : Reader ℕ
  | [] => .error "Truncated CBOR payload"
  | b :: rest => .ok (b.toNat, rest)

def readBytes (length : ℕ) : Reader Bytes := fun bytes =>
  if length > bytes.length then .error "Truncated CBOR payload"
  else .ok (bytes.take length, bytes.drop length)

def readUint32 : Reader ℕ := do
  let bytes ← readBytes 4
  return uint32OfBytes bytes

def readArgument (additionalInformation : ℕ) : Reader ℕ :=
  if additionalInformation < 24 then pure additionalInformation
  else
    match additionalInformation with
    | 24 => readByte
    | 25 => do
      let bytes ← readBytes 2
      return uint16OfBytes bytes
    | 26 => readUint32
    | 27 => do
      let high ← readUint32
      let low ← readUint32
      if high > 0x1fffff then
        .fail "Decoded CBOR integer or length is outside the safe range"
      else pure (high * 2 ^ 32 + low)
    | 31 => .fail "Indefinite-length CBOR items are not supported"
    | _ => .fail "Malformed CBOR additional information"

def readLength (additionalInformation : ℕ) (kind : String) (limit : ℕ) : Reader ℕ :=
  if additionalInformation = 31 then
    .fail s!"Indefinite-length CBOR {kind}s are not supported"
  else do
    let length ← readArgument additionalInformation
    if length > limit then .fail s!"CBOR {kind} length exceeds configured limit of {limit}"
    else pure length

def readFloat64 : Reader Double := do
  let bytes ← readBytes 8
  let value := Double.ofBytes bytes
  if !value.isFinite then .fail "Decoded CBOR number must be finite"
  else if value.isInteger && !value.isSafeInteger then
    .fail "Decoded CBOR integer is outside the safe range"
  else pure value

def readSimple (additionalInformation : ℕ) : Reader (Value σ) :=
  match additionalInformation with
  | 20 => pure (.boolean false)
  | 21 => pure (.boolean true)
  | 22 => pure .null
  | 27 => do
    let value ← readFloat64
    return .number value
  | 31 => .fail "CBOR break marker is not supported"
  | _ => .fail "Unsupported CBOR simple value or floating-point width"

def readNegative (additionalInformation : ℕ) : Reader (Value σ) := do
  let argument ← readArgument additionalInformation
  let value : ℤ := -1 - argument
  if Double.IsSafe value then pure (.number (.ofInt value))
  else .fail "Decoded CBOR integer is outside the safe range"

/-- The place of a key: array indices come first, in order. -/
def Text.rank (text : Text σ) (key : σ) : WithTop ℕ :=
  match text.arrayIndex key with
  | some i => i
  | none => ⊤

/-- `Object.defineProperty` with a key that the object does not have. -/
def defineProperty (text : Text σ) (key : σ) (value : Value σ) :
    List (σ × Value σ) → List (σ × Value σ)
  | [] => [(key, value)]
  | p :: properties =>
    if text.rank key < text.rank p.1 then (key, value) :: p :: properties
    else p :: defineProperty text key value properties

/-- `length` items, one after the other. -/
def readItems (read : Reader (Value σ)) : ℕ → Reader (List (Value σ))
  | 0 => pure []
  | length + 1 => do
    let item ← read
    let items ← readItems read length
    return item :: items

section
variable [DecidableEq σ] (text : Text σ) (options : ResolvedCborOptions)

/-- The string that is the key of an entry, and new. -/
def entryKey (key : Value σ) (properties : List (σ × Value σ)) : Reader σ :=
  match key with
  | .string key =>
    if key ∈ properties.map Prod.fst then .fail "CBOR map contains a duplicate key" else pure key
  | _ => .fail "CBOR map keys must be strings"

/-- `length` entries, added to the properties that were read. -/
def readEntries (read : Reader (Value σ)) : ℕ → List (σ × Value σ) → Reader (List (σ × Value σ))
  | 0, properties => pure properties
  | length + 1, properties => do
    let item ← read
    let key ← entryKey item properties
    let value ← read
    readEntries read length (defineProperty text key value properties)

def readText (additionalInformation : ℕ) : Reader (Value σ) := do
  let length ← readLength additionalInformation "text string" options.maxByteLength
  let bytes ← readBytes length
  match text.decode bytes with
  | some s => pure (.string s)
  | none => .fail "CBOR text string contains invalid UTF-8"

/-- The rest of an item of a major type; `read` reads the items in it. -/
def readMajor (read : Reader (Value σ)) (majorType additionalInformation : ℕ) : Reader (Value σ) :=
  match majorType with
  | 0 => do
    let n ← readArgument additionalInformation
    return .number (.ofInt n)
  | 1 => readNegative additionalInformation
  | 2 => do
    let length ← readLength additionalInformation "byte string" options.maxByteLength
    let bytes ← readBytes length
    return .bytes bytes
  | 3 => readText text options additionalInformation
  | 4 => do
    let length ← readLength additionalInformation "array" options.maxContainerLength
    let items ← readItems read length
    return .array items
  | 5 => do
    let length ← readLength additionalInformation "map" options.maxContainerLength
    let properties ← readEntries text read length []
    return .object properties
  | 6 => .fail "CBOR tags are not supported"
  | 7 => readSimple additionalInformation
  | _ => .fail "Malformed CBOR major type"

/-- Reads an item; there is room for `levels` levels of items. -/
def readItem : ℕ → Reader (Value σ)
  | 0 =>
    let limit := options.maxDepth
    .fail s!"CBOR nesting depth exceeds configured limit of {limit}"
  | levels + 1 => do
    let initial ← readByte
    readMajor text options (readItem levels) (initial >>> 5) (initial &&& 0x1f)
end

def decodeCbor [DecidableEq σ] (text : Text σ) (bytes : Bytes) (options : CborOptions) :
    Except String (Value σ) := do
  let resolved ← resolveOptions options
  let limit := resolved.maxByteLength
  if bytes.length > limit then .error s!"CBOR byte length exceeds configured limit of {limit}"
  else
    let (value, rest) ← readItem text resolved (resolved.maxDepth + 1) bytes
    if rest ≠ [] then .error "CBOR payload contains trailing data" else .ok value

end EasyPi.Protocol
