/-
# CBOR: both round trips

The bytes of a value (`wire`) and the limits that it has to meet (`Fits`) say
what the encoder does (`writes_value`). The decoder reads the bytes of a value
that fits, and what it reads fits and has bytes that are not longer than those it read.
-/
import EasyPi.Lib.Except
import EasyPi.Protocol.Cbor

namespace EasyPi.Protocol

open List

variable {σ : Type}

variable {value : Value σ} {message : String} {depth : ℕ} {items : List (Value σ)} {props : List (σ × Value σ)}
  {key : σ} {n : ℕ} {d : Double} {bytes rest : Bytes} {read : Reader (Value σ)}

theorem eq_undefined (h : value.isUndefined = true) : value = .undefined := by
  cases value <;> first | rfl | cases h

/-! ### What is written -/

def argumentBytes (majorType value : ℕ) : Bytes :=
  let initial := majorType <<< 5
  if value < 24 then [UInt8.ofNat (initial ||| value)]
  else if value ≤ 0xff then [UInt8.ofNat (initial ||| 24), UInt8.ofNat value]
  else if value ≤ 0xffff then UInt8.ofNat (initial ||| 25) :: uint16Bytes value
  else if value ≤ maxUint32 then UInt8.ofNat (initial ||| 26) :: uint32Bytes value
  else UInt8.ofNat (initial ||| 27) ::
    (uint32Bytes (value / 2 ^ 32) ++ uint32Bytes (value - value / 2 ^ 32 * 2 ^ 32))

def numberBytes (value : Double) : Bytes :=
  match value.toInt? with
  | some n =>
    if value = .negZero then 0xfb :: value.bytes
    else if 0 ≤ n then argumentBytes 0 n.toNat
    else argumentBytes 1 (-1 - n).toNat
  | none => 0xfb :: value.bytes

def textBytes (text : Text σ) (value : σ) : Bytes := argumentBytes 3 (text.encode value).length ++ text.encode value

mutual
def wire (text : Text σ) : Value σ → Bytes
  | .null => [0xf6]
  | .boolean b => [if b then 0xf5 else 0xf4]
  | .number n => numberBytes n
  | .string s => textBytes text s
  | .bytes b => argumentBytes 2 b.length ++ b
  | .array items => argumentBytes 4 items.length ++ wireItems text items
  | .object properties =>
    argumentBytes 5 (properties.filter fun p => !p.2.isUndefined).length ++ wireEntries text properties
  | .undefined | .other _ => []

def wireItems (text : Text σ) : List (Value σ) → Bytes
  | [] => []
  | item :: items => wire text item ++ wireItems text items

def wireEntries (text : Text σ) : List (σ × Value σ) → Bytes
  | [] => []
  | (_, .undefined) :: properties => wireEntries text properties
  | (key, value) :: properties =>
    textBytes text key ++ (wire text value ++ wireEntries text properties)
end

def TextFits (text : Text σ) (options : ResolvedCborOptions) (value : σ) : Prop :=
  (text.encode value).length ≤ options.maxByteLength ∧ text.decode (text.encode value) = some value

/-- The number is finite, and safe if it is an integer. -/
def NumberFits (value : Double) : Prop := value.isFinite = true ∧ ∀ n, value.toInt? = some n → Double.IsSafe n

mutual
/-- The value can be written, but for the length of all bytes. -/
def Fits (text : Text σ) (options : ResolvedCborOptions) (depth : ℕ) : Value σ → Prop
  | .null | .boolean _ => depth ≤ options.maxDepth
  | .number n => depth ≤ options.maxDepth ∧ NumberFits n
  | .string s => depth ≤ options.maxDepth ∧ TextFits text options s
  | .bytes b => depth ≤ options.maxDepth ∧ b.length ≤ options.maxByteLength
  | .array items => depth ≤ options.maxDepth ∧ items.length ≤ options.maxContainerLength ∧
      FitsItems text options (depth + 1) items
  | .object properties => depth ≤ options.maxDepth ∧
      (properties.filter fun p => !p.2.isUndefined).length ≤ options.maxContainerLength ∧
      FitsEntries text options (depth + 1) properties
  | .undefined | .other _ => False

def FitsItems (text : Text σ) (options : ResolvedCborOptions) (depth : ℕ) :
    List (Value σ) → Prop
  | [] => True
  | item :: items => Fits text options depth item ∧ FitsItems text options depth items

def FitsEntries (text : Text σ) (options : ResolvedCborOptions) (depth : ℕ) :
    List (σ × Value σ) → Prop
  | [] => True
  | (_, .undefined) :: properties => FitsEntries text options depth properties
  | (key, value) :: properties => TextFits text options key ∧ Fits text options depth value ∧
      FitsEntries text options depth properties
end

/-- A writer adds the bytes, exactly if the condition holds and they do not
exceed the limit. -/
def Writes (limit : ℕ) (w : Bytes → Except String Bytes) (bytes : Bytes) (ok : Prop) : Prop :=
  ∀ out out', out.length ≤ limit → (w out = .ok out' ↔ ok ∧ out' = out ++ bytes ∧ out'.length ≤ limit)

section
variable {limit : ℕ} {w w₁ w₂ : Bytes → Except String Bytes} {bytes bytes₁ bytes₂ : Bytes} {ok ok₁ ok₂ : Prop}

theorem writes_write (bytes : Bytes) : Writes limit (write limit bytes) bytes True := by
  intro out out' _
  unfold write
  split_ifs with h
  · constructor
    · intro h'
      cases h'
    · rintro ⟨-, rfl, hlen⟩
      rw [length_append] at hlen
      omega
  · constructor
    · intro h'
      cases h'
      refine ⟨trivial, rfl, ?_⟩
      rw [length_append]
      omega
    · rintro ⟨-, rfl, -⟩
      rfl

theorem Writes.bind (h₁ : Writes limit w₁ bytes₁ ok₁) (h₂ : Writes limit w₂ bytes₂ ok₂) :
    Writes limit (fun out => w₁ out >>= w₂) (bytes₁ ++ bytes₂) (ok₁ ∧ ok₂) := by
  intro out out' hout
  constructor
  · intro h
    obtain ⟨mid, hmid, h⟩ := bind_ok_iff.mp h
    obtain ⟨hok₁, rfl, hlen⟩ := (h₁ out mid hout).mp hmid
    obtain ⟨hok₂, rfl, hlen'⟩ := (h₂ _ out' hlen).mp h
    exact ⟨⟨hok₁, hok₂⟩, append_assoc _ _ _, hlen'⟩
  · rintro ⟨⟨hok₁, hok₂⟩, rfl, hlen⟩
    have hmid : (out ++ bytes₁).length ≤ limit := by
      rw [← append_assoc, length_append] at hlen
      omega
    refine bind_ok_iff.mpr ⟨out ++ bytes₁, (h₁ _ _ hout).mpr ⟨hok₁, rfl, hmid⟩, ?_⟩
    exact (h₂ _ _ hmid).mpr ⟨hok₂, (append_assoc _ _ _).symm, hlen⟩

theorem Writes.congr (h : Writes limit w bytes ok) (hok : ok ↔ ok₁) : Writes limit w bytes ok₁ := by
  intro out out' hout
  rw [h out out' hout, hok]

theorem Writes.guard {c : Prop} [Decidable c] (h : Writes limit w bytes ok) :
    Writes limit (fun out => if c then .error message else w out) bytes (¬c ∧ ok) := by
  intro out out' hout
  by_cases hc : c
  · simp [hc]
  · simp only [hc, if_false, not_false_iff, true_and]
    exact h out out' hout

theorem writes_error : Writes limit (fun _ => .error message) bytes False :=
  fun out out' _ => by simp

theorem writes_nil : Writes limit (fun out => .ok out) [] True := by
  intro out out' hout
  constructor
  · intro h
    cases h
    exact ⟨trivial, (append_nil _).symm, hout⟩
  · rintro ⟨-, rfl, -⟩
    rw [append_nil]

theorem writes_writeUint64 (value : ℕ) : Writes limit (writeUint64 limit value)
    (uint32Bytes (value / 2 ^ 32) ++ uint32Bytes (value - value / 2 ^ 32 * 2 ^ 32)) True :=
  ((writes_write _).bind (writes_write _)).congr (and_self_iff)

theorem writes_writeArgument (majorType value : ℕ) :
    Writes limit (writeArgument limit majorType value) (argumentBytes majorType value) True := by
  unfold writeArgument argumentBytes writeByte
  simp only
  split_ifs
  · exact writes_write _
  iterate 3 exact ((writes_write _).bind (writes_write _)).congr and_self_iff
  · exact ((writes_write _).bind (writes_writeUint64 _)).congr and_self_iff
end

section
variable [DecidableEq σ] {text : Text σ} {options : ResolvedCborOptions}

theorem writes_text (value : σ) : Writes options.maxByteLength (encodeText text options value)
    (textBytes text value) (TextFits text options value) := by
  refine Writes.congr (((writes_writeArgument 3 _).bind (writes_write _)).guard.guard) ?_
  rw [TextFits]
  simp

theorem writes_bytes (value : Bytes) : Writes options.maxByteLength (encodeBytes options value)
    (argumentBytes 2 value.length ++ value) (value.length ≤ options.maxByteLength) := by
  refine Writes.congr ((writes_writeArgument 2 _).bind (writes_write _)).guard ?_
  simp

theorem writes_container (kind : String) (majorType length : ℕ) :
    Writes options.maxByteLength (encodeContainer options kind majorType length)
      (argumentBytes majorType length) (length ≤ options.maxContainerLength) := by
  refine Writes.congr (writes_writeArgument majorType length).guard ?_
  simp

theorem writes_number (value : Double) : Writes options.maxByteLength (encodeNumber options value)
    (numberBytes value) (NumberFits value) := by
  unfold encodeNumber numberBytes writeFloat64
  cases hint : value.toInt? with
  | none =>
    refine Writes.congr (writes_write _).guard ?_
    simp [NumberFits, hint]
  | some n =>
    have hsafe : value.isSafeInteger = decide (Double.IsSafe n) := by
      simp [Double.isSafeInteger, hint]
    have hinte : Writes options.maxByteLength (fun out =>
        if value = .negZero then write options.maxByteLength (0xfb :: value.bytes) out
        else if !value.isSafeInteger then
          .error "CBOR integers must be safe JavaScript integers"
        else if 0 ≤ n then writeArgument options.maxByteLength 0 n.toNat out
        else writeArgument options.maxByteLength 1 (-1 - n).toNat out)
        (if value = .negZero then 0xfb :: value.bytes
          else if 0 ≤ n then argumentBytes 0 n.toNat
          else argumentBytes 1 (-1 - n).toNat) (Double.IsSafe n) := by
      split_ifs with hzero huns
      · refine Writes.congr (writes_write _) ?_
        rw [hzero, Double.toInt?_negZero] at hint
        obtain rfl := Option.some.inj hint
        exact iff_of_true trivial (by decide)
      all_goals simp only [hsafe, Bool.not_eq_true', decide_eq_false_iff_not, not_not] at huns
      · exact writes_error.congr (iff_of_false not_false huns)
      · exact writes_error.congr (iff_of_false not_false huns)
      · exact (writes_writeArgument _ _).congr (iff_of_true trivial huns)
      · exact (writes_writeArgument _ _).congr (iff_of_true trivial huns)
    refine hinte.guard.congr ?_
    simp [NumberFits, hint]

theorem encodeItems_cons {item : Value σ} (h : item.isUndefined = false) :
    encodeItems text options depth (item :: items) =
      fun out => encodeValue text options depth item out >>= encodeItems text options depth items := by
  cases item <;> first | rfl | cases h

theorem encodeEntries_cons
    (h : value.isUndefined = false) :
    encodeEntries text options depth ((key, value) :: props) =
      fun out => encodeText text options key out >>= fun out =>
        encodeValue text options depth value out >>= encodeEntries text options depth props := by
  cases value <;> first | rfl | cases h

omit [DecidableEq σ] in
theorem wireEntries_cons
    (h : value.isUndefined = false) :
    wireEntries text ((key, value) :: props) =
      textBytes text key ++ (wire text value ++ wireEntries text props) := by
  cases value <;> first | rfl | cases h

omit [DecidableEq σ] in
theorem fitsEntries_cons
    (h : value.isUndefined = false) :
    FitsEntries text options depth ((key, value) :: props) ↔
      TextFits text options key ∧ Fits text options depth value ∧ FitsEntries text options depth props := by
  cases value <;> first | rfl | cases h

mutual
theorem writes_value (depth : ℕ) : ∀ value : Value σ,
    Writes options.maxByteLength (encodeValue text options depth value) (wire text value) (Fits text options depth value)
  | .null => by
    refine Writes.congr (w := encodeValue text options depth .null) (writes_write _).guard ?_
    simp [Fits]
  | .boolean b => by
    have hgua : ∀ value : ℕ, Writes options.maxByteLength
        (fun out => if depth > options.maxDepth then
          .error s!"CBOR nesting depth exceeds configured limit of {options.maxDepth}"
          else writeByte options.maxByteLength value out) [UInt8.ofNat value]
        (depth ≤ options.maxDepth) :=
      fun value => (writes_write _).guard.congr (by simp)
    cases b
    · exact (hgua 0xf4).congr (by rw [Fits])
    · exact (hgua 0xf5).congr (by rw [Fits])
  | .number n => by
    refine Writes.congr (w := encodeValue text options depth (.number n)) (writes_number n).guard ?_
    simp [Fits]
  | .string s => by
    refine Writes.congr (w := encodeValue text options depth (.string s)) (writes_text s).guard ?_
    simp [Fits]
  | .bytes b => by
    refine Writes.congr (w := encodeValue text options depth (.bytes b)) (writes_bytes b).guard ?_
    simp [Fits]
  | .array items => by
    refine Writes.congr (w := encodeValue text options depth (.array items))
      ((writes_container "array" 4 items.length).bind (writes_items (depth + 1) items)).guard ?_
    simp [Fits]
  | .object props => by
    refine Writes.congr (w := encodeValue text options depth (.object props))
      ((writes_container "map" 5 _).bind (writes_entries (depth + 1) props)).guard ?_
    simp [Fits]
  | .undefined => by
    refine Writes.congr (w := encodeValue text options depth .undefined) writes_error.guard ?_
    simp [Fits]
  | .other typeof => by
    refine Writes.congr (w := encodeValue text options depth (.other typeof)) writes_error.guard ?_
    simp [Fits]

theorem writes_items (depth : ℕ) : ∀ items : List (Value σ),
    Writes options.maxByteLength (encodeItems text options depth items) (wireItems text items)
      (FitsItems text options depth items)
  | [] => writes_nil.congr (by simp [FitsItems])
  | item :: items => by
    cases hitem : item.isUndefined with
    | true =>
      obtain rfl := eq_undefined hitem
      exact writes_error.congr (by simp [FitsItems, Fits])
    | false =>
      rw [encodeItems_cons hitem]
      exact (writes_value depth item).bind (writes_items depth items)

theorem writes_entries (depth : ℕ) : ∀ props : List (σ × Value σ),
    Writes options.maxByteLength (encodeEntries text options depth props)
      (wireEntries text props) (FitsEntries text options depth props)
  | [] => writes_nil.congr (by simp [FitsEntries])
  | (key, value) :: props => by
    cases hvl : value.isUndefined with
    | true =>
      obtain rfl := eq_undefined hvl
      exact writes_entries depth props
    | false =>
      rw [encodeEntries_cons hvl, wireEntries_cons hvl]
      refine Writes.congr ((writes_text key).bind
        ((writes_value depth value).bind (writes_entries depth props))) ?_
      rw [fitsEntries_cons hvl]
end
end

/-! ### What is read -/

mutual
/-- The value without the properties that are `undefined`. -/
def stripUndefined : Value σ → Value σ
  | .array items => .array (stripItems items)
  | .object properties => .object (stripEntries properties)
  | value => value

def stripItems : List (Value σ) → List (Value σ)
  | [] => []
  | item :: items => stripUndefined item :: stripItems items

def stripEntries : List (σ × Value σ) → List (σ × Value σ)
  | [] => []
  | (_, .undefined) :: properties => stripEntries properties
  | (key, value) :: properties => (key, stripUndefined value) :: stripEntries properties
end

mutual
/-- The keys of every object are distinct and in their order. -/
def Value.WellFormed (text : Text σ) : Value σ → Prop
  | .array items => WellFormedItems text items
  | .object properties => (properties.map Prod.fst).Nodup ∧
      properties.Pairwise (fun p q => text.rank p.1 ≤ text.rank q.1) ∧ WellFormedEntries text properties
  | _ => True

def WellFormedItems (text : Text σ) : List (Value σ) → Prop
  | [] => True
  | item :: items => item.WellFormed text ∧ WellFormedItems text items

def WellFormedEntries (text : Text σ) : List (σ × Value σ) → Prop
  | [] => True
  | (_, value) :: properties => value.WellFormed text ∧ WellFormedEntries text properties
end

namespace Reader

variable {α β : Type} {x : Reader α} {f : α → Reader β} {bytes : Bytes}

theorem bind_ok {a : α} {rest : Bytes} (h : x bytes = .ok (a, rest)) : (x >>= f) bytes = f a rest := by
  change Reader.bind x f bytes = _
  rw [Reader.bind, h]

theorem bind_eq_ok {r : β × Bytes} : (x >>= f) bytes = .ok r ↔ ∃ a rest, x bytes = .ok (a, rest) ∧ f a rest = .ok r := by
  constructor
  · intro h
    cases hx : x bytes with
    | ok p => exact ⟨p.1, p.2, rfl, (bind_ok hx).symm.trans h⟩
    | error message =>
      change Reader.bind x f bytes = _ at h
      rw [Reader.bind, hx] at h
      cases h
  · rintro ⟨a, rest, hx, hf⟩
    rw [bind_ok hx, hf]

end Reader

structure ResolvedCborOptions.Valid (options : ResolvedCborOptions) : Prop where
  maxByteLength : options.maxByteLength ≤ maxUint32
  maxContainerLength : options.maxContainerLength ≤ maxUint32

theorem initial_byte : ∀ majorType < 8, ∀ info < 32,
    (UInt8.ofNat (majorType <<< 5 ||| info)).toNat >>> 5 = majorType ∧
      (UInt8.ofNat (majorType <<< 5 ||| info)).toNat &&& 0x1f = info := by
  decide

theorem readBytes_append (bytes rest : Bytes) : readBytes bytes.length (bytes ++ rest) = .ok (bytes, rest) := by
  rw [readBytes, if_neg (by simp), take_left, drop_left]

theorem readUint32_append {rest : Bytes} (h : n < 2 ^ 32) : readUint32 (uint32Bytes n ++ rest) = .ok (n, rest) := by
  have hread : readBytes 4 (uint32Bytes n ++ rest) = .ok (uint32Bytes n, rest) := readBytes_append _ _
  rw [readUint32, Reader.bind_ok hread, uint32OfBytes_uint32Bytes h]
  rfl

theorem argumentBytes_read {majorType value : ℕ} (h : value < 2 ^ 53) (rest : Bytes) :
    ∃ info tail, info < 28 ∧ argumentBytes majorType value ++ rest =
        UInt8.ofNat (majorType <<< 5 ||| info) :: tail ∧
      readArgument info tail = .ok (value, rest) := by
  unfold argumentBytes
  simp only
  split_ifs with h₀ h₁ h₂ h₃
  · refine ⟨value, rest, by omega, rfl, ?_⟩
    unfold readArgument
    rw [if_pos h₀]
    rfl
  · refine ⟨24, UInt8.ofNat value :: rest, by omega, rfl, ?_⟩
    rw [readArgument, if_neg (by omega)]
    change Except.ok ((UInt8.ofNat value).toNat, rest) = _
    rw [UInt8.toNat_ofNat', Nat.mod_eq_of_lt (by omega)]
  · refine ⟨25, uint16Bytes value ++ rest, by omega, rfl, ?_⟩
    have hread : readBytes 2 (uint16Bytes value ++ rest) = .ok (uint16Bytes value, rest) := readBytes_append _ _
    rw [readArgument, if_neg (by omega), Reader.bind_ok hread, uint16OfBytes_uint16Bytes (by omega)]
    rfl
  · refine ⟨26, uint32Bytes value ++ rest, by omega, rfl, ?_⟩
    rw [readArgument, if_neg (by omega)]
    exact readUint32_append (by simp only [maxUint32] at h₃; omega)
  · have hhigh : value / 2 ^ 32 < 2 ^ 21 := by omega
    have hlow : value - value / 2 ^ 32 * 2 ^ 32 < 2 ^ 32 := by omega
    refine ⟨27, _, by omega, by rw [cons_append, append_assoc], ?_⟩
    rw [readArgument, if_neg (by omega), Reader.bind_ok (readUint32_append (by omega)),
      Reader.bind_ok (readUint32_append hlow), if_neg (by omega)]
    change Except.ok (value / 2 ^ 32 * 2 ^ 32 + (value - value / 2 ^ 32 * 2 ^ 32), rest) = _
    rw [show value / 2 ^ 32 * 2 ^ 32 + (value - value / 2 ^ 32 * 2 ^ 32) = value by omega]

theorem isSafeInteger_of_fits (h : NumberFits d) : (d.isInteger && !d.isSafeInteger) = false := by
  cases hint : d.toInt? with
  | none => simp [Double.isInteger, hint]
  | some n =>
    have hsafe : d.isSafeInteger = true := by
      simpa [Double.isSafeInteger, hint] using h.2 n hint
    simp [hsafe]

theorem readFloat64_bytes (h : NumberFits d) (rest : Bytes) : readFloat64 (d.bytes ++ rest) = .ok (d, rest) := by
  have hread := readBytes_append d.bytes rest
  rw [Double.length_bytes] at hread
  rw [readFloat64, Reader.bind_ok hread, Double.ofBytes_bytes]
  simp only [h.1, isSafeInteger_of_fits h, Bool.not_true, Bool.false_eq_true, if_false]
  rfl

theorem readLength_of_readArgument {info length limit : ℕ} {kind : String}
    (hai : info < 28) (hlim : length ≤ limit)
    (h : readArgument info bytes = .ok (length, rest)) :
    readLength info kind limit bytes = .ok (length, rest) := by
  rw [readLength, if_neg (by omega), Reader.bind_ok h, if_neg (by omega)]
  rfl

section
variable [DecidableEq σ] {text : Text σ} {options : ResolvedCborOptions} {levels : ℕ}

theorem readItem_byte {majorType info : ℕ} (hmaj : majorType < 8)
    (hai : info < 32) (tail : Bytes) :
    readItem text options (levels + 1) (UInt8.ofNat (majorType <<< 5 ||| info) :: tail) =
      readMajor text options (readItem text options levels) majorType info
        tail := by
  obtain ⟨hm, ha⟩ := initial_byte majorType hmaj info hai
  rw [readItem, Reader.bind_ok rfl, hm, ha]

theorem readItem_argument (text : Text σ) (options : ResolvedCborOptions) (levels : ℕ)
    {majorType value : ℕ} (rest : Bytes) (hmaj : majorType < 8) (h : value < 2 ^ 53) :
    ∃ info tail, info < 28 ∧
      readItem text options (levels + 1) (argumentBytes majorType value ++ rest) =
        readMajor text options (readItem text options levels) majorType info
          tail ∧ readArgument info tail = .ok (value, rest) := by
  obtain ⟨ai, tail, hai, hbyt, hread⟩ := argumentBytes_read h rest
  exact ⟨ai, tail, hai, by rw [hbyt, readItem_byte hmaj (by omega)], hread⟩

theorem readItem_text {s : σ} (hopts : options.Valid) (h : TextFits text options s) (rest : Bytes) :
    readItem text options (levels + 1) (textBytes text s ++ rest) = .ok (.string s, rest) := by
  have hlen : (text.encode s).length < 2 ^ 53 := Nat.lt_of_le_of_lt (Nat.le_trans h.1 hopts.maxByteLength) (by decide)
  rw [textBytes, append_assoc]
  obtain ⟨ai, tail, hai, heq, hread⟩ := readItem_argument text options levels
    (text.encode s ++ rest) (by decide : 3 < 8) hlen
  rw [heq]
  change readText text options ai tail = _
  rw [readText, Reader.bind_ok (readLength_of_readArgument hai h.1 hread), Reader.bind_ok (readBytes_append _ _), h.2]
  rfl

theorem readItem_bytes {b : Bytes} (hopts : options.Valid) (h : b.length ≤ options.maxByteLength) (rest : Bytes) :
    readItem text options (levels + 1) (argumentBytes 2 b.length ++ b ++ rest) = .ok (.bytes b, rest) := by
  have hlen : b.length < 2 ^ 53 := Nat.lt_of_le_of_lt (Nat.le_trans h hopts.maxByteLength) (by decide)
  rw [append_assoc]
  obtain ⟨ai, tail, hai, heq, hread⟩ := readItem_argument text options levels (b ++ rest) (by decide : 2 < 8) hlen
  rw [heq, readMajor, Reader.bind_ok (readLength_of_readArgument hai h hread), Reader.bind_ok (readBytes_append _ _)]
  rfl

theorem readItem_float (hfits : NumberFits d) (rest : Bytes) :
    readItem text options (levels + 1) ((0xfb :: d.bytes) ++ rest) = .ok (.number d, rest) := by
  have hbyte : (0xfb : UInt8) = UInt8.ofNat (7 <<< 5 ||| 27) := by decide
  have hsim : readMajor text options (readItem text options levels) 7 27 = readSimple 27 := rfl
  rw [cons_append, hbyte, readItem_byte (by decide) (by decide), hsim, readSimple,
    Reader.bind_ok (readFloat64_bytes hfits rest)]
  rfl

theorem readItem_number (hfits : NumberFits d) (rest : Bytes) :
    readItem text options (levels + 1) (numberBytes d ++ rest) = .ok (.number d, rest) := by
  unfold numberBytes
  cases hint : d.toInt? with
  | none => exact readItem_float hfits rest
  | some n =>
    have hsafe : Double.IsSafe n := hfits.2 n hint
    have habs : n.natAbs < 2 ^ 53 := hsafe
    simp only
    split_ifs with hzero hpos
    · exact readItem_float hfits rest
    · obtain ⟨ai, tail, -, heq, hread⟩ := readItem_argument text options levels rest
        (by decide : 0 < 8) (by omega : n.toNat < 2 ^ 53)
      rw [heq, readMajor, Reader.bind_ok hread, Int.toNat_of_nonneg hpos, Double.ofInt_of_toInt? hint hsafe hzero]
      rfl
    · obtain ⟨ai, tail, -, heq, hread⟩ := readItem_argument text options levels rest
        (by decide : 1 < 8) (by omega : (-1 - n).toNat < 2 ^ 53)
      have hvl : -1 - ((-1 - n).toNat : ℤ) = n := by omega
      rw [heq]
      change readNegative ai tail = _
      rw [readNegative, Reader.bind_ok hread]
      simp only [hvl, hsafe, if_true, Double.ofInt_of_toInt? hint hsafe hzero]
      rfl

omit [DecidableEq σ] in
theorem defineProperty_append
    (h : ∀ p ∈ props, text.rank p.1 ≤ text.rank key) :
    defineProperty text key value props = props ++ [(key, value)] := by
  induction props with
  | nil => rfl
  | cons p props ih =>
    rw [defineProperty, if_neg (not_lt_of_ge (h p mem_cons_self)), ih fun q hq => h q (mem_cons_of_mem _ hq)]
    rfl

omit [DecidableEq σ] in
theorem stripEntries_cons
    (h : value.isUndefined = false) :
    stripEntries ((key, value) :: props) = (key, stripUndefined value) :: stripEntries props := by
  cases value <;> first | rfl | cases h

omit [DecidableEq σ] in
theorem fits_depth (h : Fits text options depth value) : depth ≤ options.maxDepth := by
  cases value <;> simp only [Fits] at h <;> first | exact h | exact h.1

omit [DecidableEq σ] in
theorem levels_of_fits (h : Fits text options depth value) : ∃ levels, options.maxDepth + 1 - depth = levels + 1 :=
  ⟨options.maxDepth - depth, Nat.succ_sub (fits_depth h)⟩

mutual
theorem readItem_wire (hopts : options.Valid) (depth : ℕ) : ∀ value : Value σ,
    Fits text options depth value → value.WellFormed text → ∀ rest,
      readItem text options (options.maxDepth + 1 - depth) (wire text value ++ rest) = .ok (stripUndefined value, rest)
  | .null, hfits, _, rest => by
    obtain ⟨levels, hlev⟩ := levels_of_fits hfits
    have hbyte : (0xf6 : UInt8) = UInt8.ofNat (7 <<< 5 ||| 22) := by decide
    rw [hlev, wire, cons_append, hbyte, readItem_byte (by decide) (by decide)]
    rfl
  | .boolean b, hfits, _, rest => by
    obtain ⟨levels, hlev⟩ := levels_of_fits hfits
    have hbyte : (if b then 0xf5 else 0xf4 : UInt8) = UInt8.ofNat (7 <<< 5 ||| if b then 21 else 20) := by
      cases b <;> decide
    rw [hlev, wire, cons_append, hbyte, readItem_byte (by decide) (by cases b <;> decide)]
    cases b <;> rfl
  | .number n, hfits, _, rest => by
    obtain ⟨levels, hlev⟩ := levels_of_fits hfits
    rw [hlev]
    exact readItem_number hfits.2 rest
  | .string s, hfits, _, rest => by
    obtain ⟨levels, hlev⟩ := levels_of_fits hfits
    rw [hlev]
    exact readItem_text hopts hfits.2 rest
  | .bytes b, hfits, _, rest => by
    obtain ⟨levels, hlev⟩ := levels_of_fits hfits
    rw [hlev]
    exact readItem_bytes hopts hfits.2 rest
  | .array items, hfits, hwf, rest => by
    obtain ⟨levels, hlev⟩ := levels_of_fits hfits
    have hlen : items.length < 2 ^ 53 := Nat.lt_of_le_of_lt (Nat.le_trans hfits.2.1 hopts.maxContainerLength) (by decide)
    have hite := readItems_wire hopts (depth + 1) items hfits.2.2 hwf rest
    rw [show options.maxDepth + 1 - (depth + 1) = levels by omega] at hite
    rw [hlev, wire, append_assoc]
    obtain ⟨ai, tail, hai, heq, hread⟩ := readItem_argument text options levels
      (wireItems text items ++ rest) (by decide : 4 < 8) hlen
    rw [heq, readMajor, Reader.bind_ok (readLength_of_readArgument hai hfits.2.1 hread),
      Reader.bind_ok hite, stripUndefined]
    rfl
  | .object props, hfits, hwf, rest => by
    obtain ⟨levels, hlev⟩ := levels_of_fits hfits
    have hlen : (props.filter fun p => !p.2.isUndefined).length < 2 ^ 53 :=
      Nat.lt_of_le_of_lt (Nat.le_trans hfits.2.1 hopts.maxContainerLength) (by decide)
    have hents := readEntries_wire hopts (depth + 1) props hfits.2.2 hwf.2.2 [] rest
      hwf.1 hwf.2.1
    rw [show options.maxDepth + 1 - (depth + 1) = levels by omega] at hents
    rw [hlev, wire, append_assoc]
    obtain ⟨ai, tail, hai, heq, hread⟩ := readItem_argument text options levels
      (wireEntries text props ++ rest) (by decide : 5 < 8) hlen
    rw [heq, readMajor, Reader.bind_ok (readLength_of_readArgument hai hfits.2.1 hread),
      Reader.bind_ok hents, stripUndefined]
    rfl
  | .undefined, hfits, _, _ => by
    simp [Fits] at hfits
  | .other typeof, hfits, _, _ => by
    simp [Fits] at hfits

theorem readItems_wire (hopts : options.Valid) (depth : ℕ) : ∀ items : List (Value σ),
    FitsItems text options depth items → WellFormedItems text items → ∀ rest,
      readItems (readItem text options (options.maxDepth + 1 - depth)) items.length
        (wireItems text items ++ rest) = .ok (stripItems items, rest)
  | [], _, _, rest => rfl
  | item :: items, hfits, hwf, rest => by
    rw [length_cons, readItems, wireItems, append_assoc, Reader.bind_ok (readItem_wire hopts depth item hfits.1 hwf.1 _),
      Reader.bind_ok (readItems_wire hopts depth items hfits.2 hwf.2 rest), stripItems]
    rfl

theorem readEntries_wire (hopts : options.Valid) (depth : ℕ) :
    ∀ props : List (σ × Value σ), FitsEntries text options depth props → WellFormedEntries text props →
      ∀ (done : List (σ × Value σ)) (rest : Bytes), ((done ++ props).map Prod.fst).Nodup →
        (done ++ props).Pairwise (fun p q => text.rank p.1 ≤ text.rank q.1) →
        readEntries text (readItem text options (options.maxDepth + 1 - depth))
          (props.filter fun p => !p.2.isUndefined).length done
          (wireEntries text props ++ rest) = .ok (done ++ stripEntries props, rest)
  | [], _, _, done, rest, _, _ => by
    simp only [stripEntries, append_nil]
    rfl
  | (key, value) :: props, hfits, hwf, done, rest, hnd, hpai => by
    cases hvl : value.isUndefined with
    | true =>
      -- the property is not written, and the others are as they would be without it
      obtain rfl := eq_undefined hvl
      have hsub : (done ++ props).Sublist (done ++ (key, .undefined) :: props) :=
        (List.Sublist.refl done).append (sublist_cons_self _ _)
      exact readEntries_wire hopts depth props hfits hwf.2 done rest
        (hnd.sublist (hsub.map _)) (hpai.sublist hsub)
    | false =>
      obtain ⟨hkey, hval, hrest⟩ := (fitsEntries_cons hvl).mp hfits
      obtain ⟨levels, hlev⟩ := levels_of_fits hval
      have hread := readItem_wire hopts depth value hval hwf.1
        (wireEntries text props ++ rest)
      have hnew : key ∉ done.map Prod.fst := by
        rw [map_append, nodup_append] at hnd
        exact fun hmem => hnd.2.2 key hmem key mem_cons_self rfl
      have hlast : ∀ p ∈ done, text.rank p.1 ≤ text.rank key := fun p hp =>
        (pairwise_append.mp hpai).2.2 p hp (key, value) mem_cons_self
      have hlat := readEntries_wire hopts depth props hrest hwf.2
        (done ++ [(key, stripUndefined value)]) rest
        (by simpa using hnd) (by simpa [pairwise_append] using hpai)
      rw [filter_cons_of_pos (by simp [hvl]), length_cons, readEntries, wireEntries_cons hvl, append_assoc, append_assoc]
      rw [hlev] at hread hlat ⊢
      rw [Reader.bind_ok (readItem_text hopts hkey _)]
      have hent : entryKey (.string key) done (wire text value ++ (wireEntries text props ++ rest)) =
          .ok (key, wire text value ++ (wireEntries text props ++ rest)) := by
        rw [entryKey, if_neg hnew]
        rfl
      rw [Reader.bind_ok hent, Reader.bind_ok hread, defineProperty_append hlast, hlat,
        stripEntries_cons hvl, append_assoc]
      rfl
end
end

/-! ### What the decoder accepts -/

theorem Reader.fail_ne_ok {α : Type} {bytes : Bytes} {r : α × Bytes} :
    (Reader.fail message : Reader α) bytes ≠ .ok r := by
  rintro ⟨⟩

theorem Reader.pure_eq_ok {α : Type} {a b : α}
    (h : (pure a : Reader α) bytes = .ok (b, rest)) : a = b ∧ bytes = rest := by
  cases h
  exact ⟨rfl, rfl⟩

theorem readBytes_sound {bytes b rest : Bytes} (h : readBytes n bytes = .ok (b, rest)) :
    bytes = b ++ rest ∧ b.length = n := by
  unfold readBytes at h
  split_ifs at h with hlen
  cases h
  exact ⟨(take_append_drop _ _).symm, length_take_of_le (by omega)⟩

theorem readUint32_sound (h : readUint32 bytes = .ok (n, rest)) : n < 2 ^ 32 ∧ bytes.length = 4 + rest.length := by
  obtain ⟨b, rest', hread, hn⟩ := Reader.bind_eq_ok.mp h
  obtain ⟨rfl, rfl⟩ := Reader.pure_eq_ok hn
  obtain ⟨rfl, hlen⟩ := readBytes_sound hread
  exact ⟨uint32OfBytes_lt b, by rw [length_append, hlen]⟩

theorem length_argumentBytes (majorType value : ℕ) :
    (argumentBytes majorType value).length =
      if value < 24 then 1 else if value ≤ 0xff then 2 else if value ≤ 0xffff then 3
      else if value ≤ maxUint32 then 5 else 9 := by
  unfold argumentBytes
  simp only
  split_ifs <;> rfl

theorem length_argumentBytes_le (majorType value : ℕ) : (argumentBytes majorType value).length ≤ 9 := by
  rw [length_argumentBytes]
  split_ifs <;> decide

theorem readArgument_sound {info value : ℕ}
    (h : readArgument info bytes = .ok (value, rest)) :
    value < 2 ^ 53 ∧ ∀ majorType, (argumentBytes majorType value).length + rest.length ≤ 1 + bytes.length := by
  unfold readArgument at h
  split_ifs at h with hsmall
  · obtain ⟨rfl, rfl⟩ := Reader.pure_eq_ok h
    refine ⟨by omega, fun majorType => ?_⟩
    rw [length_argumentBytes, if_pos hsmall]
  · split at h
    · -- one byte
      cases bytes with
      | nil => cases h
      | cons b bytes =>
        cases h
        have hb := b.toNat_lt
        refine ⟨by omega, fun majorType => ?_⟩
        rw [length_argumentBytes, length_cons]
        split_ifs <;> omega
    · -- two bytes
      obtain ⟨b, rest', hread, hvl⟩ := Reader.bind_eq_ok.mp h
      obtain ⟨rfl, rfl⟩ := Reader.pure_eq_ok hvl
      obtain ⟨rfl, hlen⟩ := readBytes_sound hread
      have hlt := uint16OfBytes_lt b
      refine ⟨by omega, fun majorType => ?_⟩
      rw [length_argumentBytes, length_append, hlen]
      split_ifs <;> omega
    · -- four bytes
      obtain ⟨hlt, hlen⟩ := readUint32_sound h
      refine ⟨by omega, fun majorType => ?_⟩
      rw [length_argumentBytes, hlen, maxUint32]
      split_ifs <;> omega
    · -- eight bytes
      obtain ⟨high, rest₁, hhigh, h⟩ := Reader.bind_eq_ok.mp h
      obtain ⟨low, rest₂, hlow, h⟩ := Reader.bind_eq_ok.mp h
      split_ifs at h with hsafe
      · exact absurd h Reader.fail_ne_ok
      · obtain ⟨rfl, rfl⟩ := Reader.pure_eq_ok h
        obtain ⟨-, hlen₁⟩ := readUint32_sound hhigh
        obtain ⟨hlt, hlen₂⟩ := readUint32_sound hlow
        refine ⟨by omega, fun majorType => ?_⟩
        have := length_argumentBytes_le majorType (high * 2 ^ 32 + low)
        omega
    · exact absurd h Reader.fail_ne_ok
    · exact absurd h Reader.fail_ne_ok

theorem readLength_sound {info length limit : ℕ} {kind : String}
    (h : readLength info kind limit bytes = .ok (length, rest)) :
    length ≤ limit ∧ ∀ majorType, (argumentBytes majorType length).length + rest.length ≤ 1 + bytes.length := by
  unfold readLength at h
  split_ifs at h
  · exact absurd h Reader.fail_ne_ok
  · obtain ⟨n, rest', hread, h⟩ := Reader.bind_eq_ok.mp h
    split_ifs at h
    · exact absurd h Reader.fail_ne_ok
    · obtain ⟨rfl, rfl⟩ := Reader.pure_eq_ok h
      exact ⟨by omega, (readArgument_sound hread).2⟩

theorem numberFits_ofInt {n : ℤ} (h : Double.IsSafe n) : NumberFits (.ofInt n) := by
  have hint := Double.toInt?_ofInt h
  refine ⟨Double.isFinite_of_toInt? hint, fun m hm => ?_⟩
  rw [hint] at hm
  exact Option.some.inj hm ▸ h

theorem numberBytes_ofInt {n : ℤ} (h : Double.IsSafe n) :
    numberBytes (.ofInt n) = if 0 ≤ n then argumentBytes 0 n.toNat else argumentBytes 1 (-1 - n).toNat := by
  rw [numberBytes, Double.toInt?_ofInt h]
  exact if_neg (Double.ofInt_ne_negZero h)

theorem length_numberBytes_le (d : Double) : (numberBytes d).length ≤ 9 := by
  have hflo : (0xfb :: d.bytes : Bytes).length = 9 := by
    rw [length_cons, Double.length_bytes]
  unfold numberBytes
  split
  · split_ifs
    · exact Nat.le_of_eq hflo
    · exact length_argumentBytes_le _ _
    · exact length_argumentBytes_le _ _
  · exact Nat.le_of_eq hflo

theorem readFloat64_sound (h : readFloat64 bytes = .ok (d, rest)) : NumberFits d ∧ bytes.length = 8 + rest.length := by
  obtain ⟨b, rest', hread, h⟩ := Reader.bind_eq_ok.mp h
  split_ifs at h with hfin huns
  · exact absurd h Reader.fail_ne_ok
  · exact absurd h Reader.fail_ne_ok
  · obtain ⟨rfl, rfl⟩ := Reader.pure_eq_ok h
    obtain ⟨rfl, hlen⟩ := readBytes_sound hread
    refine ⟨⟨by simpa using hfin, fun n hn => ?_⟩, by rw [length_append, hlen]⟩
    simpa [Double.isInteger, Double.isSafeInteger, hn] using huns

/-- A value that was read: it fits, its objects are in order, nothing in it is
`undefined`, and its bytes are no more than those it was read from. -/
structure Sound (text : Text σ) (options : ResolvedCborOptions) (depth : ℕ) (bytes : Bytes)
    (value : Value σ) (rest : Bytes) : Prop where
  fits : Fits text options depth value
  wellFormed : value.WellFormed text
  strip : stripUndefined value = value
  length : (wire text value).length + rest.length ≤ bytes.length

structure GoodItem (text : Text σ) (options : ResolvedCborOptions) (depth : ℕ) (value : Value σ) : Prop where
  fits : Fits text options depth value
  wellFormed : value.WellFormed text
  strip : stripUndefined value = value

section
variable {text : Text σ} {options : ResolvedCborOptions} {depth : ℕ}

theorem Sound.good
    (h : Sound text options depth bytes value rest) : GoodItem text options depth value :=
  ⟨h.fits, h.wellFormed, h.strip⟩

theorem isUndefined_of_fits (h : Fits text options depth value) : value.isUndefined = false := by
  cases value <;> first | rfl | simp [Fits] at h

theorem good_items (h : ∀ item ∈ items, GoodItem text options depth item) :
    FitsItems text options depth items ∧ WellFormedItems text items ∧ stripItems items = items := by
  induction items with
  | nil => exact ⟨trivial, trivial, rfl⟩
  | cons item items ih =>
    have hitem := h item mem_cons_self
    obtain ⟨hfits, hwf, hstr⟩ := ih fun v hv => h v (mem_cons_of_mem _ hv)
    exact ⟨⟨hitem.fits, hfits⟩, ⟨hitem.wellFormed, hwf⟩, by rw [stripItems, hitem.strip, hstr]⟩

def entriesLength (text : Text σ) (properties : List (σ × Value σ)) : ℕ :=
  (properties.map fun p => (textBytes text p.1).length + (wire text p.2).length).sum

theorem entriesLength_cons (key : σ) (value : Value σ) (props : List (σ × Value σ)) :
    entriesLength text ((key, value) :: props) =
      (textBytes text key).length + (wire text value).length + entriesLength text props := by
  rw [entriesLength, map_cons, sum_cons, entriesLength]

theorem good_entries
    (h : ∀ p ∈ props, TextFits text options p.1 ∧ GoodItem text options depth p.2) :
    FitsEntries text options depth props ∧ WellFormedEntries text props ∧
      stripEntries props = props ∧ (props.filter fun p => !p.2.isUndefined) = props ∧
      (wireEntries text props).length = entriesLength text props := by
  induction props with
  | nil => exact ⟨trivial, trivial, rfl, rfl, rfl⟩
  | cons p props ih =>
    obtain ⟨key, value⟩ := p
    obtain ⟨hkey, hvl⟩ := h (key, value) mem_cons_self
    have hdef := isUndefined_of_fits hvl.fits
    obtain ⟨hfits, hwf, hstr, hfil, hleng⟩ := ih fun q hq => h q (mem_cons_of_mem _ hq)
    refine ⟨(fitsEntries_cons hdef).mpr ⟨hkey, hvl.fits, hfits⟩, ⟨hvl.wellFormed, hwf⟩, ?_, ?_, ?_⟩
    · rw [stripEntries_cons hdef, hvl.strip, hstr]
    · rw [filter_cons_of_pos (by simp [hdef]), hfil]
    · rw [wireEntries_cons hdef, length_append, length_append, hleng, entriesLength_cons, Nat.add_assoc]

theorem perm_defineProperty (key : σ) (value : Value σ) (props : List (σ × Value σ)) :
    (defineProperty text key value props).Perm ((key, value) :: props) := by
  induction props with
  | nil => exact .refl _
  | cons p props ih =>
    rw [defineProperty]
    split_ifs
    · exact .refl _
    · exact (ih.cons p).trans (.swap _ _ _)

theorem sorted_defineProperty
    (h : props.Pairwise fun p q => text.rank p.1 ≤ text.rank q.1) :
    (defineProperty text key value props).Pairwise
      fun p q => text.rank p.1 ≤ text.rank q.1 := by
  induction props with
  | nil => exact pairwise_singleton _ _
  | cons p props ih =>
    obtain ⟨hp, hrest⟩ := pairwise_cons.mp h
    rw [defineProperty]
    split_ifs with hlt
    · refine pairwise_cons.mpr ⟨fun q hq => ?_, h⟩
      rcases mem_cons.mp hq with rfl | hq
      · exact le_of_lt hlt
      · exact le_trans (le_of_lt hlt) (hp q hq)
    · refine pairwise_cons.mpr ⟨fun q hq => ?_, ih hrest⟩
      rcases mem_cons.mp ((perm_defineProperty key value props).mem_iff.mp hq) with
        rfl | hq
      · exact le_of_not_gt hlt
      · exact hp q hq

theorem readItems_sound (hread : ∀ bytes value rest, read bytes = .ok (value, rest) →
      Sound text options depth bytes value rest) :
    ∀ {length : ℕ} {bytes rest : Bytes} {items : List (Value σ)}, readItems read length bytes = .ok (items, rest) →
      items.length = length ∧ (∀ item ∈ items, GoodItem text options depth item) ∧
        (wireItems text items).length + rest.length ≤ bytes.length := by
  intro length
  induction length with
  | zero =>
    intro bytes rest items h
    obtain ⟨rfl, rfl⟩ := Reader.pure_eq_ok h
    exact ⟨rfl, by simp, by simp [wireItems]⟩
  | succ length ih =>
    intro bytes rest items h
    obtain ⟨item, rest₁, hitem, h⟩ := Reader.bind_eq_ok.mp h
    obtain ⟨items', rest₂, hite, h⟩ := Reader.bind_eq_ok.mp h
    obtain ⟨rfl, rfl⟩ := Reader.pure_eq_ok h
    have hsnd := hread _ _ _ hitem
    obtain ⟨hlen, hgood, hwire⟩ := ih hite
    refine ⟨by rw [length_cons, hlen], ?_, ?_⟩
    · intro v hv
      rcases mem_cons.mp hv with rfl | hv
      · exact hsnd.good
      · exact hgood v hv
    · have hitemlen := hsnd.length
      rw [wireItems, length_append]
      omega

structure GoodProperties (text : Text σ) (options : ResolvedCborOptions) (depth : ℕ)
    (properties : List (σ × Value σ)) : Prop where
  nodup : (properties.map Prod.fst).Nodup
  sorted : properties.Pairwise fun p q => text.rank p.1 ≤ text.rank q.1
  good : ∀ p ∈ properties, TextFits text options p.1 ∧ GoodItem text options depth p.2

theorem GoodProperties.defineProperty
    (h : GoodProperties text options depth props)
    (hnew : key ∉ props.map Prod.fst) (hkey : TextFits text options key)
    (hvl : GoodItem text options depth value) :
    GoodProperties text options depth (defineProperty text key value props) ∧
      (Protocol.defineProperty text key value props).length = props.length + 1 ∧
      entriesLength text (Protocol.defineProperty text key value props) =
        (textBytes text key).length + (wire text value).length + entriesLength text props := by
  have hperm : (Protocol.defineProperty text key value props).Perm ((key, value) :: props) :=
    perm_defineProperty key value props
  refine ⟨⟨?_, sorted_defineProperty h.sorted, fun p hp => ?_⟩, hperm.length_eq, ?_⟩
  · rw [(hperm.map Prod.fst).nodup_iff]
    exact nodup_cons.mpr ⟨hnew, h.nodup⟩
  · rcases mem_cons.mp (hperm.mem_iff.mp hp) with rfl | hp
    · exact ⟨hkey, hvl⟩
    · exact h.good p hp
  · rw [← entriesLength_cons]
    exact (hperm.map _).sum_nat
end

section
variable [DecidableEq σ] {text : Text σ} {options : ResolvedCborOptions} {depth : ℕ}

theorem entryKey_sound {item : Value σ} (h : entryKey item props bytes = .ok (key, rest)) :
    item = .string key ∧ key ∉ props.map Prod.fst ∧ bytes = rest := by
  unfold entryKey at h
  split at h
  · split_ifs at h with hmem
    · exact absurd h Reader.fail_ne_ok
    · obtain ⟨rfl, rfl⟩ := Reader.pure_eq_ok h
      exact ⟨rfl, hmem, rfl⟩
  · exact absurd h Reader.fail_ne_ok

theorem readEntries_sound (hread : ∀ bytes value rest, read bytes = .ok (value, rest) →
      Sound text options depth bytes value rest) :
    ∀ {length : ℕ} {bytes rest : Bytes} {done props : List (σ × Value σ)},
      readEntries text read length done bytes = .ok (props, rest) → GoodProperties text options depth done →
      GoodProperties text options depth props ∧ props.length = done.length + length ∧
        entriesLength text props + rest.length ≤ entriesLength text done + bytes.length := by
  intro length
  induction length with
  | zero =>
    intro bytes rest done props h hdone
    obtain ⟨rfl, rfl⟩ := Reader.pure_eq_ok h
    exact ⟨hdone, rfl, Nat.le_refl _⟩
  | succ length ih =>
    intro bytes rest done props h hdone
    obtain ⟨item, rest₁, hitem, h⟩ := Reader.bind_eq_ok.mp h
    obtain ⟨key, rest₂, hkey, h⟩ := Reader.bind_eq_ok.mp h
    obtain ⟨value, rest₃, hvl, hlat⟩ := Reader.bind_eq_ok.mp h
    obtain ⟨rfl, hnew, rfl⟩ := entryKey_sound hkey
    have hkeyS := hread _ _ _ hitem
    have hvalu := hread _ _ _ hvl
    obtain ⟨hdone', hlen, hents⟩ := hdone.defineProperty hnew hkeyS.fits.2 hvalu.good
    obtain ⟨hgood, hleng, hwire⟩ := ih hlat hdone'
    refine ⟨hgood, by omega, ?_⟩
    have hkeyL : (textBytes text key).length + rest₁.length ≤ bytes.length := hkeyS.length
    have hvalueLength := hvalu.length
    omega

section
variable {ai : ℕ} {b : UInt8} {tail rest : Bytes} {value : Value σ}
  (htext : ∀ b s, text.decode b = some s → text.encode s = b) (hdep : depth ≤ options.maxDepth)

theorem length_of_head (h : n + rest.length ≤ 1 + tail.length) : n + rest.length ≤ (b :: tail).length := by
  rw [length_cons]
  omega

include hdep

omit [DecidableEq σ] in
theorem readUnsigned_sound (h : readArgument ai tail = .ok (n, rest)) :
    Sound text options depth (b :: tail) (.number (.ofInt n)) rest := by
  obtain ⟨hlt, harg⟩ := readArgument_sound h
  have hsafe : Double.IsSafe (n : ℤ) := by simpa [Double.IsSafe] using hlt
  refine ⟨⟨hdep, numberFits_ofInt hsafe⟩, trivial, rfl, length_of_head ?_⟩
  rw [wire, numberBytes_ofInt hsafe, if_pos (Int.natCast_nonneg n), Int.toNat_natCast]
  exact harg 0

omit [DecidableEq σ] in
theorem readNegative_sound (h : readNegative ai tail = .ok (value, rest)) :
    Sound text options depth (b :: tail) value rest := by
  obtain ⟨n, rest', hread, hvl⟩ := Reader.bind_eq_ok.mp h
  split_ifs at hvl with hsafe
  · obtain ⟨rfl, rfl⟩ := Reader.pure_eq_ok hvl
    refine ⟨⟨hdep, numberFits_ofInt hsafe⟩, trivial, rfl, length_of_head ?_⟩
    rw [wire, numberBytes_ofInt hsafe, if_neg (by omega), show (-1 - (-1 - (n : ℤ))).toNat = n by omega]
    exact (readArgument_sound hread).2 1
  · exact absurd hvl Reader.fail_ne_ok

omit [DecidableEq σ] in
theorem readByteString_sound {rest' bytes : Bytes}
    (hleng : readLength ai "byte string" options.maxByteLength tail = .ok (n, rest'))
    (hbyt : readBytes n rest' = .ok (bytes, rest)) : Sound text options depth (b :: tail) (.bytes bytes) rest := by
  obtain ⟨hlim, harg⟩ := readLength_sound hleng
  obtain ⟨rfl, rfl⟩ := readBytes_sound hbyt
  refine ⟨⟨hdep, hlim⟩, trivial, rfl, length_of_head ?_⟩
  have hhead := harg 2
  rw [length_append] at hhead
  rw [wire, length_append]
  omega

omit [DecidableEq σ] in
include htext in
theorem readText_sound (h : readText text options ai tail = .ok (value, rest)) :
    Sound text options depth (b :: tail) value rest := by
  obtain ⟨n, rest₁, hleng, hbody⟩ := Reader.bind_eq_ok.mp h
  obtain ⟨bytes, rest₂, hbyt, hvl⟩ := Reader.bind_eq_ok.mp hbody
  obtain ⟨hlim, harg⟩ := readLength_sound hleng
  obtain ⟨hspl, rfl⟩ := readBytes_sound hbyt
  cases hs : text.decode bytes with
  | some s =>
    rw [hs] at hvl
    obtain ⟨rfl, rfl⟩ := Reader.pure_eq_ok hvl
    have henc := htext bytes s hs
    have hfits : TextFits text options s := by
      rw [TextFits, henc]
      exact ⟨hlim, hs⟩
    refine ⟨⟨hdep, hfits⟩, trivial, rfl, length_of_head ?_⟩
    have hhead := harg 3
    rw [hspl, length_append] at hhead
    rw [wire, textBytes, henc, length_append]
    omega
  | none =>
    rw [hs] at hvl
    exact absurd hvl Reader.fail_ne_ok

omit [DecidableEq σ] in
theorem readArray_sound {rest' : Bytes}
    (hread : ∀ bytes value rest, read bytes = .ok (value, rest) → Sound text options (depth + 1) bytes value rest)
    (hleng : readLength ai "array" options.maxContainerLength tail = .ok (n, rest'))
    (hite : readItems read n rest' = .ok (items, rest)) : Sound text options depth (b :: tail) (.array items) rest := by
  obtain ⟨hlim, harg⟩ := readLength_sound hleng
  obtain ⟨rfl, hgood, hwire⟩ := readItems_sound hread hite
  obtain ⟨hfits, hwf, hstr⟩ := good_items hgood
  refine ⟨⟨hdep, hlim, hfits⟩, hwf, by rw [stripUndefined, hstr], length_of_head ?_⟩
  have hhead := harg 4
  rw [wire, length_append]
  omega

theorem readMap_sound {rest' : Bytes}
    (hread : ∀ bytes value rest, read bytes = .ok (value, rest) → Sound text options (depth + 1) bytes value rest)
    (hleng : readLength ai "map" options.maxContainerLength tail = .ok (n, rest'))
    (hents : readEntries text read n [] rest' = .ok (props, rest)) :
    Sound text options depth (b :: tail) (.object props) rest := by
  obtain ⟨hlim, harg⟩ := readLength_sound hleng
  obtain ⟨hgood, hlen, hwire⟩ := readEntries_sound hread hents
    ⟨nodup_nil, .nil, by simp⟩
  obtain ⟨hfits, hwf, hstr, hfil, hwir⟩ := good_entries hgood.good
  rw [length_nil, Nat.zero_add] at hlen
  have hnil : entriesLength text [] = 0 := rfl
  refine ⟨⟨hdep, by rw [hfil, hlen]; exact hlim, hfits⟩, ⟨hgood.nodup, hgood.sorted, hwf⟩,
    by rw [stripUndefined, hstr], length_of_head ?_⟩
  have hhead := harg 5
  rw [wire, hfil, hlen, length_append, hwir]
  omega

omit [DecidableEq σ] in
theorem readSimple_sound (h : readSimple ai tail = .ok (value, rest)) :
    Sound text options depth (b :: tail) value rest := by
  unfold readSimple at h
  split at h
  iterate 3
    · obtain ⟨rfl, rfl⟩ := Reader.pure_eq_ok h
      exact ⟨hdep, trivial, rfl, length_of_head (Nat.le_refl _)⟩
  · obtain ⟨d, rest', hflo, hvl⟩ := Reader.bind_eq_ok.mp h
    obtain ⟨rfl, rfl⟩ := Reader.pure_eq_ok hvl
    obtain ⟨hfits, hlen⟩ := readFloat64_sound hflo
    refine ⟨⟨hdep, hfits⟩, trivial, rfl, length_of_head ?_⟩
    have hnum := length_numberBytes_le d
    rw [wire]
    omega
  · exact absurd h Reader.fail_ne_ok
  · exact absurd h Reader.fail_ne_ok

include htext in
theorem readMajor_sound {majorType : ℕ}
    (hread : ∀ bytes value rest, read bytes = .ok (value, rest) → Sound text options (depth + 1) bytes value rest)
    (h : readMajor text options read majorType ai tail = .ok (value, rest)) :
    Sound text options depth (b :: tail) value rest := by
  unfold readMajor at h
  split at h
  · obtain ⟨n, rest', harg, hvl⟩ := Reader.bind_eq_ok.mp h
    obtain ⟨rfl, rfl⟩ := Reader.pure_eq_ok hvl
    exact readUnsigned_sound hdep harg
  · exact readNegative_sound hdep h
  · obtain ⟨n, rest₁, hleng, hbody⟩ := Reader.bind_eq_ok.mp h
    obtain ⟨bytes, rest₂, hbyt, hvl⟩ := Reader.bind_eq_ok.mp hbody
    obtain ⟨rfl, rfl⟩ := Reader.pure_eq_ok hvl
    exact readByteString_sound hdep hleng hbyt
  · exact readText_sound htext hdep h
  · obtain ⟨n, rest₁, hleng, hbody⟩ := Reader.bind_eq_ok.mp h
    obtain ⟨items, rest₂, hite, hvl⟩ := Reader.bind_eq_ok.mp hbody
    obtain ⟨rfl, rfl⟩ := Reader.pure_eq_ok hvl
    exact readArray_sound hdep hread hleng hite
  · obtain ⟨n, rest₁, hleng, hbody⟩ := Reader.bind_eq_ok.mp h
    obtain ⟨props, rest₂, hents, hvl⟩ := Reader.bind_eq_ok.mp hbody
    obtain ⟨rfl, rfl⟩ := Reader.pure_eq_ok hvl
    exact readMap_sound hdep hread hleng hents
  · exact absurd h Reader.fail_ne_ok
  · exact readSimple_sound hdep h
  · exact absurd h Reader.fail_ne_ok
end

theorem readItem_sound (htext : ∀ b s, text.decode b = some s → text.encode s = b) :
    ∀ {levels : ℕ}, levels ≤ options.maxDepth + 1 → ∀ bytes value rest,
      readItem text options levels bytes = .ok (value, rest) →
      Sound text options (options.maxDepth + 1 - levels) bytes value rest := by
  intro levels
  induction levels with
  | zero =>
    intro _ bytes value rest h
    cases h
  | succ levels ih =>
    intro hlev bytes value rest h
    have hinn := ih (by omega)
    rw [show options.maxDepth + 1 - levels = options.maxDepth + 1 - (levels + 1) + 1 by omega]
      at hinn
    obtain ⟨initial, tail, hbyte, hmaj⟩ := Reader.bind_eq_ok.mp h
    cases bytes with
    | nil => cases hbyte
    | cons b bytes =>
      cases hbyte
      exact readMajor_sound htext (by omega) hinn hmaj
end

/-! ### Both directions -/

theorem resolveOption_le {name : String} {value : Option Double} {default_ maximum limit : ℕ}
    (hdefa : default_ ≤ maximum) (h : resolveOption name value default_ maximum = .ok limit) : limit ≤ maximum := by
  unfold resolveOption at h
  split at h
  · exact resolveLimit_le h
  · cases h
    exact hdefa

theorem resolveOptions_valid {options : CborOptions} {resolved : ResolvedCborOptions}
    (h : resolveOptions options = .ok resolved) : resolved.Valid := by
  obtain ⟨maxByteLength, hbyt, h⟩ := bind_ok_iff.mp h
  obtain ⟨maxContainerLength, hcon, h⟩ := bind_ok_iff.mp h
  obtain ⟨maxDepth, -, h⟩ := bind_ok_iff.mp h
  cases h
  exact ⟨resolveOption_le (by decide) hbyt, resolveOption_le (by decide) hcon⟩

section
variable [DecidableEq σ] {text : Text σ} {value : Value σ} {bytes : Bytes} {options : CborOptions}

theorem encodeCbor_eq_ok :
    encodeCbor text value options = .ok bytes ↔
      ∃ resolved, resolveOptions options = .ok resolved ∧ Fits text resolved 0 value ∧
        bytes = wire text value ∧ bytes.length ≤ resolved.maxByteLength := by
  rw [encodeCbor, bind_ok_iff]
  refine exists_congr fun resolved => and_congr_right fun _ => ?_
  exact writes_value 0 value [] bytes (Nat.zero_le _)

theorem decodeCbor_eq_ok :
    decodeCbor text bytes options = .ok value ↔
      ∃ resolved, resolveOptions options = .ok resolved ∧ bytes.length ≤ resolved.maxByteLength ∧
        readItem text resolved (resolved.maxDepth + 1) bytes = .ok (value, []) := by
  rw [decodeCbor, bind_ok_iff]
  refine exists_congr fun resolved => and_congr_right fun _ => ?_
  simp only
  split_ifs with hlen
  · constructor
    · intro h
      cases h
    · rintro ⟨hle, -⟩
      omega
  · rw [bind_ok_iff]
    constructor
    · rintro ⟨⟨v, rest⟩, hread, h⟩
      simp only at h
      split_ifs at h with hrest
      cases h
      rw [not_not] at hrest
      exact ⟨by omega, hrest ▸ hread⟩
    · rintro ⟨-, hread⟩
      exact ⟨_, hread, rfl⟩

theorem decodeCbor_encodeCbor (hwf : value.WellFormed text) (h : encodeCbor text value options = .ok bytes) :
    decodeCbor text bytes options = .ok (stripUndefined value) := by
  obtain ⟨resolved, hres, hfits, rfl, hlen⟩ := encodeCbor_eq_ok.mp h
  refine decodeCbor_eq_ok.mpr ⟨resolved, hres, hlen, ?_⟩
  have hread := readItem_wire (resolveOptions_valid hres) 0 value hfits hwf []
  rwa [append_nil] at hread

theorem encodeCbor_decodeCbor (htext : ∀ b s, text.decode b = some s → text.encode s = b)
    (h : decodeCbor text bytes options = .ok value) :
    ∃ canonical, encodeCbor text value options = .ok canonical ∧
      canonical.length ≤ bytes.length ∧ value.WellFormed text ∧ stripUndefined value = value := by
  obtain ⟨resolved, hres, hlen, hread⟩ := decodeCbor_eq_ok.mp h
  have hsnd := readItem_sound htext (Nat.le_refl _) bytes value [] hread
  rw [Nat.sub_self] at hsnd
  have hwire : (wire text value).length ≤ bytes.length := hsnd.length
  exact ⟨wire text value, encodeCbor_eq_ok.mpr ⟨resolved, hres, hsnd.fits, rfl, by omega⟩,
    hwire, hsnd.wellFormed, hsnd.strip⟩
end

/-- A value whose objects have distinct keys, in the order of `Object.keys`. -/
def JsValue (text : Text σ) : Type := { value : Value σ // value.WellFormed text }

/-- Strings of ASCII characters: each is its byte. -/
def asciiText : Text (List UInt8) where
  encode s := s
  decode b := if b.all (· < 128) then some b else none
  arrayIndex s :=
    if s.all (fun c => 48 ≤ c ∧ c ≤ 57) ∧ s ≠ [] ∧ (s = [48] ∨ s.head? ≠ some 48) then
      some (s.foldl (fun n c => 10 * n + (c.toNat - 48)) 0)
    else none

/-- **What is encoded is decoded.** The bytes of a value are decoded under the
same options to the value without the properties that are `undefined`. -/
theorem cbor_round_trip [DecidableEq σ] (text : Text σ) (value : JsValue text)
    (options : CborOptions) (bytes : Bytes) (h : encodeCbor text value.val options = .ok bytes) :
    decodeCbor text bytes options = .ok (stripUndefined value.val) :=
  decodeCbor_encodeCbor value.property h

/-- An object with a property that is `undefined`, and an array with `-0`. -/
theorem cbor_round_trip_ascii :
    decodeCbor asciiText
        [0xa1, 0x61, 98, 0x82, 0x21, 0xfb, 0x80, 0, 0, 0, 0, 0, 0, 0] {} =
      .ok (.object [([98], .array [.number (.ofInt (-2)), .number .negZero])]) :=
  cbor_round_trip asciiText
    ⟨.object [([97], .undefined), ([98], .array [.number (.ofInt (-2)), .number .negZero])],
      by decide, by decide, trivial, ⟨trivial, trivial, trivial⟩, trivial⟩
    {} _ (by decide +kernel)

/-- **What is decoded has a canonical form.** A value that was decoded can be
encoded under the same options, in no more bytes, which are decoded to the
value again, and are what is encoded from it then. -/
theorem cbor_reencode [DecidableEq σ] (text : Text σ)
    (htext : ∀ b s, text.decode b = some s → text.encode s = b) (bytes : Bytes)
    (options : CborOptions) (value : Value σ)
    (h : decodeCbor text bytes options = .ok value) :
    ∃ canonical, encodeCbor text value options = .ok canonical ∧ canonical.length ≤ bytes.length ∧
      decodeCbor text canonical options = .ok value ∧ ∀ value', decodeCbor text canonical options = .ok value' →
        encodeCbor text value' options = .ok canonical := by
  obtain ⟨canonical, henc, hlen, hwf, hstr⟩ := encodeCbor_decodeCbor htext h
  have hdec := decodeCbor_encodeCbor hwf henc
  rw [hstr] at hdec
  refine ⟨canonical, henc, hlen, hdec, fun value' hvl' => ?_⟩
  rw [hdec] at hvl'
  cases hvl'
  exact henc

/-- A map with a long form of its length, and a key that is an index, read last. -/
theorem cbor_reencode_ascii :
    ∃ canonical, encodeCbor asciiText
        (.object [([55], .null), ([97], .boolean true)]) {} = .ok canonical ∧ canonical.length ≤ 8 := by
  obtain ⟨canonical, henc, hlen, -⟩ := cbor_reencode asciiText
    (fun b s h => by
      unfold asciiText at h
      simp only at h
      split_ifs at h
      cases h
      rfl)
    [0xb8, 2, 0x61, 97, 0xf5, 0x61, 55, 0xf6] {} _ rfl
  exact ⟨canonical, henc, hlen⟩

/-- **An encoding ends where its value does.** No encoding begins with that of another value. -/
theorem cbor_prefix_free [DecidableEq σ] (text : Text σ) (v w : JsValue text) (options : CborOptions) (bytes rest : Bytes)
    (hv : encodeCbor text v.val options = .ok bytes) (hw : encodeCbor text w.val options = .ok (bytes ++ rest)) :
    rest = [] ∧ stripUndefined v.val = stripUndefined w.val := by
  obtain ⟨resolved, hres, hfits, rfl, -⟩ := encodeCbor_eq_ok.mp hv
  obtain ⟨resolved', hres', hfits', hwire, -⟩ := encodeCbor_eq_ok.mp hw
  have hsame : resolved' = resolved := Except.ok.inj (hres'.symm.trans hres)
  rw [hsame] at hfits'
  have hread := readItem_wire (resolveOptions_valid hres) 0 v.val hfits v.property rest
  have hread' := readItem_wire (resolveOptions_valid hres) 0 w.val hfits' w.property []
  rw [append_nil, ← hwire, hread] at hread'
  obtain ⟨hstrip, hrest⟩ := Prod.mk.inj (Except.ok.inj hread')
  exact ⟨hrest, hstrip⟩

theorem cbor_prefix_free_ascii : ([] : Bytes) = [] ∧ stripUndefined (.object [([97], .undefined)] : Value (List UInt8)) =
    stripUndefined (.object []) :=
  cbor_prefix_free asciiText ⟨.object [([97], .undefined)], by decide, by decide, trivial, trivial⟩
    ⟨.object [], by decide, by decide, trivial⟩ {} [0xa0] [] (by decide +kernel) (by decide +kernel)

end EasyPi.Protocol
