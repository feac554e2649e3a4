/-
# Length-prefixed frames

`packages/protocol/src/framing.ts`: a frame is its payload behind the length
of the payload, four bytes, most significant first. `FrameDecoder` takes the
bytes of a stream in chunks and returns the payloads that each chunk completes. A
payload is collected in blocks of 64 KiB.

What the decoder has taken and not returned is a prefix of a frame (`Reads`),
and a push takes it and the chunk apart as `parseFrames` does in one piece.
-/
import EasyPi.Lib.Double

namespace EasyPi.Protocol

open List

def frameHeaderLength : ℕ := 4

def maxUint32 : ℕ := 0xffffffff

def payloadBlockSize : ℕ := 64 * 1024

/-- Default upper bound for one framed CBOR payload. -/
def defaultMaxFrameLength : ℕ := 16 * 1024 * 1024

/-- A limit given as a number: a safe integer from 0 to `maximum`. -/
def resolveLimit (name : String) (value : Double) (maximum : ℕ) : Except String ℕ :=
  match value.toInt? with
  | some n =>
    if Double.IsSafe n ∧ 0 ≤ n ∧ n ≤ maximum then .ok n.toNat
    else .error s!"{name} must be an integer between 0 and {maximum}"
  | none => .error s!"{name} must be an integer between 0 and {maximum}"

def resolveMaxFrameLength (maxFrameLength : Option Double) : Except String ℕ :=
  match maxFrameLength with
  | some value => resolveLimit "maxFrameLength" value maxUint32
  | none => .ok defaultMaxFrameLength

def encodeFrame (payload : Bytes) : Except String Bytes :=
  if payload.length > maxUint32 then
    .error "Frame payload exceeds the unsigned 32-bit length limit"
  else .ok (uint32Bytes payload.length ++ payload)

/-- The bytes are exactly one frame within the limit. -/
def assertCompleteFrame (frame : Bytes) (maxFrameLength : Option Double) : Except String Unit :=
  if frame.length < frameHeaderLength then
    .error "Frame does not contain a complete length prefix"
  else
    let length := uint32OfBytes frame
    match resolveMaxFrameLength maxFrameLength with
    | .error message => .error message
    | .ok limit =>
      if length > limit then .error s!"Frame length {length} exceeds configured limit of {limit}"
      else if frame.length ≠ frameHeaderLength + length then
        .error "Frame must contain exactly one complete payload"
      else .ok ()

inductive DecoderState where
  | open_
  | ended
  | failed
  deriving DecidableEq

/-- The decoder between two calls. `currentPayloadBlock` is the place in
`payloadBlocks` of the block that is being filled. -/
structure FrameDecoder where
  header : Bytes := List.replicate frameHeaderLength 0
  headerLength : ℕ := 0
  maxFrameLength : ℕ
  payloadBlocks : List Bytes := []
  currentPayloadBlock : Option ℕ := none
  currentPayloadBlockLength : ℕ := 0
  expectedPayloadLength : Option ℕ := none
  payloadLength : ℕ := 0
  state : DecoderState := .open_
  deriving DecidableEq

/-- `target.set(source, offset)`. -/
def setBytes (target source : Bytes) (offset : ℕ) : Bytes :=
  target.take offset ++ source ++ target.drop (offset + source.length)

namespace FrameDecoder

/-- `new FrameDecoder(options)`. -/
def new (maxFrameLength : Option Double) : Except String FrameDecoder :=
  (resolveMaxFrameLength maxFrameLength).map fun limit => { maxFrameLength := limit }

variable (d : FrameDecoder)

def clear : FrameDecoder :=
  { d with
    payloadBlocks := []
    currentPayloadBlock := none
    currentPayloadBlockLength := 0
    expectedPayloadLength := none
    payloadLength := 0 }

/-- The decoder after `fail`. -/
def fail : FrameDecoder := { d.clear with state := .failed, headerLength := 0 }

/-- A new block, if there is none or the current one is full. -/
def nextBlock (expected : ℕ) : FrameDecoder :=
  match d.currentPayloadBlock with
  | some i =>
    if d.currentPayloadBlockLength = (d.payloadBlocks.getD i []).length then allocate else d
  | none => allocate
where
  allocate : FrameDecoder :=
    { d with
      payloadBlocks := d.payloadBlocks ++ [List.replicate (min payloadBlockSize (expected - d.payloadLength)) 0]
      currentPayloadBlock := some d.payloadBlocks.length
      currentPayloadBlockLength := 0 }

/-- The bytes of the chunk that the current block takes. -/
def fillBlock (rest : Bytes) : FrameDecoder × Bytes :=
  match d.currentPayloadBlock with
  | none => (d, rest)
  | some i =>
    let block := d.payloadBlocks.getD i []
    let payloadBytes := min (block.length - d.currentPayloadBlockLength) rest.length
    ({ d with
        payloadBlocks :=
          d.payloadBlocks.set i
            (setBytes block (rest.take payloadBytes) d.currentPayloadBlockLength)
        currentPayloadBlockLength := d.currentPayloadBlockLength + payloadBytes
        payloadLength := d.payloadLength + payloadBytes }, rest.drop payloadBytes)

/-- The inner loop: blocks are filled until the chunk or the payload ends. The
bytes of the chunk bound the number of rounds. -/
def fillPayload (expected : ℕ) : ℕ → FrameDecoder → Bytes → FrameDecoder × Bytes
  | 0, d, rest => (d, rest)
  | n + 1, d, rest =>
    if rest = [] ∨ expected ≤ d.payloadLength then (d, rest)
    else
      let (d, rest) := (d.nextBlock expected).fillBlock rest
      fillPayload expected n d rest

/-- The blocks, copied one after the other into a new payload. -/
def joinBlocks (expected : ℕ) (blocks : List Bytes) : Bytes :=
  (blocks.foldl (fun (acc : Bytes × ℕ) block =>
    (setBytes acc.1 block acc.2, acc.2 + block.length)) (List.replicate expected 0, 0)).1

/-- The payload bytes of the chunk, and the payload if it is complete. -/
def readPayload (expected : ℕ) (rest : Bytes) : (Option Bytes × Bytes) × FrameDecoder :=
  let (d, rest) := fillPayload expected rest.length d rest
  if d.payloadLength = expected then
    let payload :=
      match d.payloadBlocks with
      | [block] => block
      | blocks => joinBlocks expected blocks
    ((some payload, rest), d.clear)
  else ((none, rest), d)

/-- One round of the loop of `push`: the payload it completes, if any, and the
rest of the chunk. -/
def round (rest : Bytes) : Except String (Option Bytes × Bytes) × FrameDecoder :=
  match d.expectedPayloadLength with
  | some expected =>
    let (result, d) := d.readPayload expected rest
    (.ok result, d)
  | none =>
    let headerBytes := min (frameHeaderLength - d.headerLength) rest.length
    let header := setBytes d.header (rest.take headerBytes) d.headerLength
    let headerLength := d.headerLength + headerBytes
    let rest := rest.drop headerBytes
    if headerLength < frameHeaderLength then
      (.ok (none, rest), { d with header := header, headerLength := headerLength })
    else
      let frameLength := uint32OfBytes header
      let d := { d with header := header, headerLength := 0 }
      let limit := d.maxFrameLength
      if frameLength > limit then
        (.error s!"Frame length {frameLength} exceeds configured limit of {limit}", d.fail)
      else if frameLength = 0 then (.ok (some [], rest), d)
      else
        let d := { d.clear with expectedPayloadLength := some frameLength }
        let (result, d) := d.readPayload frameLength rest
        (.ok result, d)

/-- The loop of `push`. Every round takes a byte of the chunk, whose length
bounds their number. -/
def pushLoop : ℕ → FrameDecoder → Bytes → List Bytes → Except String (List Bytes) × FrameDecoder
  | 0, d, _, frames => (.ok frames, d)
  | n + 1, d, rest, frames =>
    if rest = [] then (.ok frames, d)
    else
      match d.round rest with
      | (.error message, d) => (.error message, d)
      | (.ok (frame, rest), d) => pushLoop n d rest (frames ++ frame.toList)

def push (chunk : Bytes) : Except String (List Bytes) × FrameDecoder :=
  match d.state with
  | .ended => (.error "Frame decoder has ended", d)
  | .failed => (.error "Frame decoder has failed", d)
  | .open_ => pushLoop chunk.length d chunk []

def end_ : Except String Unit × FrameDecoder :=
  match d.state with
  | .ended => (.error "Frame decoder has ended", d)
  | .failed => (.error "Frame decoder has failed", d)
  | .open_ =>
    if d.headerLength ≠ 0 ∨ d.expectedPayloadLength ≠ none then
      (.error "Truncated frame at end of stream", d.fail)
    else (.ok (), { d with state := .ended })

/-- The results of pushing chunks one after the other. -/
def pushAll (d : FrameDecoder) : List Bytes → List (Except String (List Bytes)) × FrameDecoder
  | [] => ([], d)
  | chunk :: chunks =>
    let (result, d) := d.push chunk
    let (results, d) := d.pushAll chunks
    (result :: results, d)

inductive Call where
  | push (chunk : Bytes)
  | end_

def call : Call → Except String (List Bytes) × FrameDecoder
  | .push chunk => d.push chunk
  | .end_ => (d.end_.1.map fun _ => [], d.end_.2)

/-- The results of calls made one after the other. -/
def callAll (d : FrameDecoder) : List Call → List (Except String (List Bytes))
  | [] => []
  | c :: calls => (d.call c).1 :: (d.call c).2.callAll calls

end FrameDecoder

theorem resolveLimit_le {name : String} {value : Double} {maximum limit : ℕ}
    (h : resolveLimit name value maximum = .ok limit) : limit ≤ maximum := by
  unfold resolveLimit at h
  split at h
  · split_ifs at h with hran
    cases h
    omega
  · cases h

variable {limit : ℕ} {frames : List Bytes} {rest : Bytes} {message : String}

theorem resolveMaxFrameLength_le {maxFrameLength : Option Double}
    (h : resolveMaxFrameLength maxFrameLength = .ok limit) : limit ≤ maxUint32 := by
  unfold resolveMaxFrameLength at h
  split at h
  · exact resolveLimit_le h
  · cases h
    decide

/-! ### The parse in one piece -/

/-- The beginning of a byte string: a frame with its payload and what follows
it, a frame whose length exceeds the limit, or less than a frame. -/
inductive First where
  | frame (payload rest : Bytes)
  | overLimit (frameLength : ℕ)
  | unfinished
  deriving DecidableEq

def firstFrame (limit : ℕ) (bytes : Bytes) : First :=
  if bytes.length < 4 then .unfinished
  else if limit < uint32OfBytes bytes then .overLimit (uint32OfBytes bytes)
  else if bytes.length < 4 + uint32OfBytes bytes then .unfinished
  else .frame ((bytes.drop 4).take (uint32OfBytes bytes)) (bytes.drop (4 + uint32OfBytes bytes))

theorem firstFrame_eq_frame {bytes payload rest : Bytes} :
    firstFrame limit bytes = .frame payload rest ↔ ∃ header, header.length = 4 ∧ uint32OfBytes header = payload.length ∧
        payload.length ≤ limit ∧ bytes = header ++ (payload ++ rest) := by
  constructor
  · intro h
    unfold firstFrame at h
    split_ifs at h with hhdr hlim hleng
    obtain ⟨rfl, rfl⟩ := First.frame.inj h
    have hpay : ((bytes.drop 4).take (uint32OfBytes bytes)).length = uint32OfBytes bytes := by
      rw [length_take, length_drop]
      omega
    have htake : (bytes.take 4).length = 4 := by
      rw [length_take]
      omega
    refine ⟨bytes.take 4, htake, ?_, by omega, ?_⟩
    · rw [hpay, ← uint32OfBytes_append htake, take_append_drop]
    · rw [← drop_drop, take_append_drop, take_append_drop]
  · rintro ⟨header, hhdr, hleng, hlim, rfl⟩
    rw [firstFrame, uint32OfBytes_append hhdr, hleng]
    simp only [length_append]
    rw [if_neg (by omega), if_neg (by omega), if_neg (by omega), ← drop_drop, drop_left' hhdr, take_left, drop_left]

theorem firstFrame_of_short {header bytes : Bytes} (hhdr : header.length = 4)
    (hlim : uint32OfBytes header ≤ limit) (hsho : bytes.length < uint32OfBytes header) :
    firstFrame limit (header ++ bytes) = .unfinished := by
  rw [firstFrame, uint32OfBytes_append hhdr, length_append, if_neg (by omega), if_neg (by omega), if_pos (by omega)]

theorem firstFrame_of_overLimit {header bytes : Bytes} (hhdr : header.length = 4) (hlim : limit < uint32OfBytes header) :
    firstFrame limit (header ++ bytes) = .overLimit (uint32OfBytes header) := by
  rw [firstFrame, uint32OfBytes_append hhdr, length_append, if_neg (by omega), if_pos hlim]

theorem length_lt_of_frame {bytes payload rest : Bytes}
    (h : firstFrame limit bytes = .frame payload rest) : rest.length < bytes.length := by
  obtain ⟨header, hhdr, -, -, rfl⟩ := firstFrame_eq_frame.mp h
  simp only [length_append]
  omega

/-- What is left after the last whole frame: an unfinished frame, or a frame
whose length exceeds the limit. -/
inductive Tail where
  | rest (bytes : Bytes)
  | overLimit (frameLength : ℕ)
  deriving DecidableEq

def parseFrames (limit : ℕ) (bytes : Bytes) : List Bytes × Tail :=
  match _h : firstFrame limit bytes with
  | .unfinished => ([], .rest bytes)
  | .overLimit frameLength => ([], .overLimit frameLength)
  | .frame payload rest =>
    let (frames, tail) := parseFrames limit rest
    (payload :: frames, tail)
termination_by bytes.length
decreasing_by exact length_lt_of_frame _h

section
variable {limit : ℕ} {bytes : Bytes}

theorem parseFrames_of_unfinished (h : firstFrame limit bytes = .unfinished) :
    parseFrames limit bytes = ([], .rest bytes) := by
  rw [parseFrames]
  split <;> simp_all

theorem parseFrames_of_overLimit {frameLength : ℕ} (h : firstFrame limit bytes = .overLimit frameLength) :
    parseFrames limit bytes = ([], .overLimit frameLength) := by
  rw [parseFrames]
  split <;> simp_all

theorem parseFrames_of_frame {payload rest : Bytes} (h : firstFrame limit bytes = .frame payload rest) :
    parseFrames limit bytes = (payload :: (parseFrames limit rest).1, (parseFrames limit rest).2) := by
  rw [parseFrames]
  split <;> simp_all

theorem firstFrame_append {payload rest more : Bytes} (h : firstFrame limit bytes = .frame payload rest) :
    firstFrame limit (bytes ++ more) = .frame payload (rest ++ more) := by
  obtain ⟨header, hhdr, hleng, hlim, rfl⟩ := firstFrame_eq_frame.mp h
  exact firstFrame_eq_frame.mpr ⟨header, hhdr, hleng, hlim, by simp⟩

theorem parseFrames_append (more : Bytes) (h : parseFrames limit bytes = (frames, .rest rest)) :
    parseFrames limit (bytes ++ more) =
      (frames ++ (parseFrames limit (rest ++ more)).1, (parseFrames limit (rest ++ more)).2) := by
  induction hn : bytes.length using Nat.strongRecOn generalizing bytes frames with
  | ind n ih =>
    cases hfst : firstFrame limit bytes with
    | unfinished =>
      rw [parseFrames_of_unfinished hfst] at h
      cases h
      rfl
    | frame payload rest' =>
      rw [parseFrames_of_frame hfst] at h
      obtain ⟨rfl, htail⟩ := Prod.mk.inj h
      have hrec := ih _ (hn ▸ length_lt_of_frame hfst) (Prod.ext rfl htail) rfl
      rw [parseFrames_of_frame (firstFrame_append hfst), hrec]
      rfl
    | overLimit frameLength =>
      rw [parseFrames_of_overLimit hfst] at h
      cases h

theorem parseFrames_overLimit_append {frameLength : ℕ} (more : Bytes)
    (h : parseFrames limit bytes = (frames, .overLimit frameLength)) :
    parseFrames limit (bytes ++ more) = (frames, .overLimit frameLength) := by
  induction hn : bytes.length using Nat.strongRecOn generalizing bytes frames with
  | ind n ih =>
    cases hfst : firstFrame limit bytes with
    | unfinished =>
      rw [parseFrames_of_unfinished hfst] at h
      cases h
    | frame payload rest' =>
      rw [parseFrames_of_frame hfst] at h
      obtain ⟨rfl, htail⟩ := Prod.mk.inj h
      have hrec := ih _ (hn ▸ length_lt_of_frame hfst) (Prod.ext rfl htail) rfl
      rw [parseFrames_of_frame (firstFrame_append hfst), hrec]
    | overLimit length =>
      rw [parseFrames_of_overLimit hfst] at h
      cases h
      refine parseFrames_of_overLimit ?_
      unfold firstFrame at hfst
      split_ifs at hfst with hhdr hlim
      cases hfst
      have htake : (bytes.take 4).length = 4 := by
        rw [length_take]
        omega
      have hspl := take_append_drop 4 bytes
      rw [← hspl, uint32OfBytes_append htake] at hlim ⊢
      rw [append_assoc]
      exact firstFrame_of_overLimit htake hlim

theorem parseFrames_encoded {payloads : List Bytes} (hlim : limit ≤ maxUint32)
    (h : ∀ payload ∈ payloads, payload.length ≤ limit) :
    ∃ wires, payloads.mapM encodeFrame = .ok wires ∧ parseFrames limit wires.flatten = (payloads, .rest []) := by
  induction payloads with
  | nil => exact ⟨[], rfl, parseFrames_of_unfinished (by simp [firstFrame])⟩
  | cons payload payloads ih =>
    obtain ⟨wires, hwir, hprs⟩ := ih fun p hp => h p (mem_cons_of_mem _ hp)
    have hpay := h payload mem_cons_self
    have henc : encodeFrame payload = .ok (uint32Bytes payload.length ++ payload) := if_neg (by omega)
    refine ⟨(uint32Bytes payload.length ++ payload) :: wires, ?_, ?_⟩
    · rw [mapM_cons, henc, hwir]
      rfl
    · have hfst : firstFrame limit ((uint32Bytes payload.length ++ payload) ++ wires.flatten) =
          .frame payload wires.flatten := by
        refine firstFrame_eq_frame.mpr ⟨uint32Bytes payload.length, rfl, ?_, hpay, by simp⟩
        refine uint32OfBytes_uint32Bytes ?_
        simp only [maxUint32] at hlim
        omega
      rw [flatten_cons, parseFrames_of_frame hfst, hprs]
end

/-! ### The payload -/

namespace FrameDecoder

/-- What the loop over the payload does not change. -/
def kept (d : FrameDecoder) : Bytes × ℕ × ℕ × Option ℕ × DecoderState :=
  (d.header, d.headerLength, d.maxFrameLength, d.expectedPayloadLength, d.state)

end FrameDecoder

/-- The blocks are full but for the current one, and have the bytes; there is
a place for each of them in the payload. -/
def InBlock (d : FrameDecoder) (expected : ℕ) (bytes : Bytes) (blocks : List Bytes) (block : Bytes) : Prop :=
  d.payloadBlocks = blocks ++ [block] ∧ d.currentPayloadBlock = some blocks.length ∧
    d.currentPayloadBlockLength ≤ block.length ∧ bytes = blocks.flatten ++ block.take d.currentPayloadBlockLength ∧
    blocks.flatten.length + block.length ≤ expected

/-- The blocks have the bytes of the payload. -/
def Holds (d : FrameDecoder) (expected : ℕ) (bytes : Bytes) : Prop :=
  d.payloadLength = bytes.length ∧ ((d.currentPayloadBlock = none ∧ d.payloadBlocks = [] ∧ bytes = []) ∨
      ∃ blocks block, InBlock d expected bytes blocks block)

section
variable {d : FrameDecoder} {expected : ℕ} {bytes : Bytes}

theorem kept_nextBlock : (d.nextBlock expected).kept = d.kept := by
  unfold FrameDecoder.nextBlock
  split
  · split_ifs <;> rfl
  · rfl

theorem kept_fillBlock : (d.fillBlock rest).1.kept = d.kept := by
  unfold FrameDecoder.fillBlock
  split <;> rfl

theorem InBlock.currentBlock {blocks : List Bytes} {block : Bytes} (h : InBlock d expected bytes blocks block) :
    d.payloadBlocks.getD blocks.length [] = block := by
  rw [h.1, getD_append_right _ _ _ _ (Nat.le_refl _), Nat.sub_self]
  rfl

theorem inBlock_allocate (hlen : d.payloadLength = bytes.length) (hlt : bytes.length < expected)
    (hbyt : d.payloadBlocks.flatten = bytes) :
    ∃ blocks block, InBlock (FrameDecoder.nextBlock.allocate d expected) expected bytes blocks block ∧
      (FrameDecoder.nextBlock.allocate d expected).currentPayloadBlockLength < block.length := by
  refine ⟨d.payloadBlocks, _, ⟨rfl, rfl, Nat.zero_le _, ?_, ?_⟩, ?_⟩
  · simpa [FrameDecoder.nextBlock.allocate] using hbyt.symm
  · rw [hbyt, length_replicate, hlen]
    omega
  · change 0 < _
    rw [length_replicate, hlen]
    simp only [payloadBlockSize]
    omega

theorem Holds.nextBlock (h : Holds d expected bytes) (hlt : bytes.length < expected) :
    (d.nextBlock expected).payloadLength = bytes.length ∧
      ∃ blocks block, InBlock (d.nextBlock expected) expected bytes blocks block ∧
        (d.nextBlock expected).currentPayloadBlockLength < block.length := by
  obtain ⟨hlen, ⟨hcur, hblo, rfl⟩ | ⟨blocks, block, hin⟩⟩ := h
  · rw [FrameDecoder.nextBlock, hcur]
    exact ⟨hlen, inBlock_allocate hlen hlt (by rw [hblo]; rfl)⟩
  · obtain ⟨hblo, hcur, hle, hbyt, hroom⟩ := id hin
    rw [FrameDecoder.nextBlock, hcur]
    simp only [hin.currentBlock]
    split_ifs with hfull
    · refine ⟨hlen, inBlock_allocate hlen hlt ?_⟩
      rw [hblo, hbyt, hfull, take_length]
      simp
    · exact ⟨hlen, blocks, block, hin, Nat.lt_of_le_of_ne hle hfull⟩

theorem take_setBytes {block part : Bytes} {offset : ℕ} (h : offset + part.length ≤ block.length) :
    (setBytes block part offset).take (offset + part.length) = block.take offset ++ part ∧
      (setBytes block part offset).length = block.length := by
  have hlen : (block.take offset ++ part).length = offset + part.length := by
    rw [length_append, length_take]
    omega
  constructor
  · rw [setBytes, take_left' hlen]
  · rw [setBytes, length_append, hlen, length_drop]
    omega

theorem InBlock.fillBlock {blocks : List Bytes} {block rest : Bytes}
    (h : InBlock d expected bytes blocks block) (hlen : d.payloadLength = bytes.length)
    (hroom : d.currentPayloadBlockLength < block.length) (hrest : rest ≠ []) :
    ∃ k d', d.fillBlock rest = (d', rest.drop k) ∧ 0 < k ∧ k ≤ rest.length ∧
      k ≤ expected - bytes.length ∧ Holds d' expected (bytes ++ rest.take k) := by
  have hbloc := h.currentBlock
  obtain ⟨hblo, hcur, hle, hbyt, htot⟩ := h
  have hpos : 0 < rest.length := length_pos_iff.mpr hrest
  have hbyteslen : bytes.length = blocks.flatten.length + d.currentPayloadBlockLength := by
    rw [hbyt, length_append, length_take]
    omega
  obtain ⟨k, hk⟩ : ∃ k, k = min (block.length - d.currentPayloadBlockLength) rest.length := ⟨_, rfl⟩
  have htake : (rest.take k).length = k := by
    rw [length_take]
    omega
  obtain ⟨hset, hsetlen⟩ : (setBytes block (rest.take k) d.currentPayloadBlockLength).take
        (d.currentPayloadBlockLength + k) = block.take d.currentPayloadBlockLength ++ rest.take k ∧ _ := by
    have hfit : d.currentPayloadBlockLength + (rest.take k).length ≤ block.length := by omega
    have hset := take_setBytes hfit
    rwa [htake] at hset
  have heq : d.fillBlock rest = ({ d with
          payloadBlocks :=
            d.payloadBlocks.set blocks.length
              (setBytes block (rest.take k) d.currentPayloadBlockLength)
          currentPayloadBlockLength := d.currentPayloadBlockLength + k
          payloadLength := d.payloadLength + k }, rest.drop k) := by
    rw [FrameDecoder.fillBlock, hcur]
    simp only [hbloc, ← hk]
  refine ⟨k, _, heq, by omega, by omega, by omega, ?_⟩
  refine ⟨?_, .inr ⟨blocks, setBytes block (rest.take k) d.currentPayloadBlockLength, ?_, hcur, ?_, ?_, ?_⟩⟩
  · rw [length_append, htake, ← hlen]
  · change d.payloadBlocks.set _ _ = _
    rw [hblo]
    simp
  · change d.currentPayloadBlockLength + k ≤ _
    omega
  · change _ = _ ++ List.take (d.currentPayloadBlockLength + k) _
    rw [hset, hbyt, append_assoc]
  · rw [hsetlen]
    exact htot

theorem Holds.fillPayload {n : ℕ} (h : Holds d expected bytes) (hle : bytes.length ≤ expected) (hn : rest.length ≤ n) :
    ∃ d', FrameDecoder.fillPayload expected n d rest = (d', rest.drop (expected - bytes.length)) ∧
      Holds d' expected (bytes ++ rest.take (expected - bytes.length)) ∧ d'.kept = d.kept := by
  induction n generalizing d bytes rest with
  | zero =>
    obtain rfl : rest = [] := length_eq_zero_iff.mp (by omega)
    exact ⟨d, by simp [FrameDecoder.fillPayload], by simpa using h, rfl⟩
  | succ n ih =>
    rw [FrameDecoder.fillPayload]
    split_ifs with hstop
    · refine ⟨d, ?_, ?_, rfl⟩
      · rcases hstop with rfl | hfull
        · simp
        · rw [h.1] at hfull
          simp [Nat.sub_eq_zero_of_le hfull]
      · rcases hstop with rfl | hfull
        · simpa using h
        · rw [h.1] at hfull
          simpa [Nat.sub_eq_zero_of_le hfull] using h
    · rw [not_or, h.1] at hstop
      obtain ⟨hlen, blocks, block, hin, hroom⟩ := h.nextBlock (by omega)
      obtain ⟨k, d₁, heq, hpos, hk, hfit, h₁⟩ := hin.fillBlock hlen hroom hstop.1
      have htake : (rest.take k).length = k := length_take_of_le hk
      have hkept : d₁.kept = d.kept :=
        calc d₁.kept = ((d.nextBlock expected).fillBlock rest).1.kept := by rw [heq]
          _ = (d.nextBlock expected).kept := kept_fillBlock
          _ = d.kept := kept_nextBlock
      have hn' : (rest.drop k).length ≤ n := by
        rw [length_drop]
        omega
      obtain ⟨d', heq', h', hkept'⟩ := ih h₁ (by rw [length_append]; omega) hn'
      have hsub : k + (expected - (bytes ++ rest.take k).length) = expected - bytes.length := by
        rw [length_append]
        omega
      refine ⟨d', ?_, ?_, hkept'.trans hkept⟩
      · rw [heq]
        simp only
        rw [heq', drop_drop, hsub]
      · rw [append_assoc, ← take_add, hsub] at h'
        exact h'

theorem foldl_setBytes (blocks : List Bytes) (done zeros : Bytes) (h : blocks.flatten.length = zeros.length) :
    (blocks.foldl (fun (acc : Bytes × ℕ) block =>
      (setBytes acc.1 block acc.2, acc.2 + block.length)) (done ++ zeros, done.length)).1 = done ++ blocks.flatten := by
  induction blocks generalizing done zeros with
  | nil =>
    obtain rfl : zeros = [] := length_eq_zero_iff.mp h.symm
    simp
  | cons block blocks ih =>
    rw [flatten_cons, length_append] at h
    have hset : setBytes (done ++ zeros) block done.length = (done ++ block) ++ zeros.drop block.length := by
      rw [setBytes, take_left, ← drop_drop, drop_left]
    rw [foldl_cons, hset, ← length_append, ih (done ++ block) (zeros.drop block.length) (by rw [length_drop]; omega)]
    simp

theorem Holds.payload (h : Holds d bytes.length bytes) (hpos : 0 < bytes.length) :
    (match d.payloadBlocks with
      | [block] => block
      | blocks => FrameDecoder.joinBlocks bytes.length blocks) = bytes := by
  obtain ⟨hlen, ⟨-, -, rfl⟩ | ⟨blocks, block, hblo, -, hle, hbyt, hfit⟩⟩ := h
  · simp at hpos
  · have hfull : d.currentPayloadBlockLength = block.length := by
      have := congrArg List.length hbyt
      rw [length_append, length_take] at this
      omega
    have hflat : d.payloadBlocks.flatten = bytes := by
      rw [hblo, hbyt, hfull, take_length]
      simp
    split
    · rename_i b hb
      rw [← hflat, hb]
      simp
    · rw [FrameDecoder.joinBlocks]
      have hjoin := foldl_setBytes d.payloadBlocks [] (List.replicate bytes.length 0) (by rw [hflat, length_replicate])
      rw [hflat] at hjoin
      exact hjoin
end

/-! ### The decoder between two rounds -/

/-- The decoder is open and has taken the bytes `pending` of a frame that is
not complete: a part of a header, or a header and a part of its payload. -/
structure Reads (d : FrameDecoder) (pending : Bytes) : Prop where
  state : d.state = .open_
  header : d.header.length = 4
  pending :
    (d.expectedPayloadLength = none ∧ d.headerLength < 4 ∧ pending = d.header.take d.headerLength) ∨
    (d.expectedPayloadLength = some (uint32OfBytes d.header) ∧ d.headerLength = 0 ∧
      uint32OfBytes d.header ≤ d.maxFrameLength ∧
      ∃ bytes, bytes.length < uint32OfBytes d.header ∧ Holds d (uint32OfBytes d.header) bytes ∧
        pending = d.header ++ bytes)

/-- What a round gives, when the taken bytes and the chunk together begin so. -/
def RoundResult (limit : ℕ) (total rest : Bytes)
    (result : Except String (Option Bytes × Bytes) × FrameDecoder) : First → Prop
  | .unfinished => ∃ d, result = (.ok (none, []), d) ∧ Reads d total ∧ d.maxFrameLength = limit
  | .frame payload rest' => ∃ d, result = (.ok (some payload, rest'), d) ∧ Reads d [] ∧
      d.maxFrameLength = limit ∧ rest'.length < rest.length
  | .overLimit frameLength => ∃ d, result =
      (.error s!"Frame length {frameLength} exceeds configured limit of {limit}", d) ∧ d.state = .failed

section
variable {d : FrameDecoder} {pending rest : Bytes}

theorem Reads.unfinished (h : Reads d pending) : firstFrame d.maxFrameLength pending = .unfinished := by
  rcases h.pending with ⟨-, hlen, rfl⟩ | ⟨-, -, hlim, bytes, hsho, -, rfl⟩
  · rw [firstFrame, if_pos]
    rw [length_take]
    omega
  · exact firstFrame_of_short h.header hlim hsho

theorem readPayload_result {bytes : Bytes} (rest : Bytes) (hst : d.state = .open_)
    (hhdr : d.header.length = 4) (hlen : d.headerLength = 0)
    (hexp : d.expectedPayloadLength = some (uint32OfBytes d.header)) (hlim : uint32OfBytes d.header ≤ d.maxFrameLength)
    (hsho : bytes.length < uint32OfBytes d.header) (hhol : Holds d (uint32OfBytes d.header) bytes) :
    (rest.length + bytes.length < uint32OfBytes d.header →
      ∃ d', d.readPayload (uint32OfBytes d.header) rest = ((none, []), d') ∧
        Reads d' (d.header ++ (bytes ++ rest)) ∧ d'.maxFrameLength = d.maxFrameLength) ∧
    (uint32OfBytes d.header ≤ rest.length + bytes.length →
      ∃ payload rest' d', d.readPayload (uint32OfBytes d.header) rest = ((some payload, rest'), d') ∧
        payload.length = uint32OfBytes d.header ∧ bytes ++ rest = payload ++ rest' ∧
        Reads d' [] ∧ d'.maxFrameLength = d.maxFrameLength) := by
  obtain ⟨d', heq, hd', hkept⟩ := hhol.fillPayload (Nat.le_of_lt hsho) (Nat.le_refl rest.length)
  simp only [FrameDecoder.kept, Prod.mk.injEq] at hkept
  obtain ⟨hhdr', hlen', hmax', hexp', hst'⟩ := hkept
  constructor
  · intro hmore
    have hall : rest.length ≤ uint32OfBytes d.header - bytes.length := by omega
    rw [take_of_length_le hall] at hd'
    rw [drop_of_length_le hall] at heq
    refine ⟨d', ?_, ⟨hst'.trans hst, hhdr' ▸ hhdr, .inr ?_⟩, hmax'⟩
    · rw [FrameDecoder.readPayload, heq]
      simp only
      rw [if_neg]
      rw [hd'.1, length_append]
      omega
    · rw [hhdr']
      refine ⟨hexp'.trans hexp, hlen'.trans hlen, hmax' ▸ hlim, bytes ++ rest, ?_, hd', rfl⟩
      rw [length_append]
      omega
  · intro hdone
    have hpay : (bytes ++ rest.take (uint32OfBytes d.header - bytes.length)).length = uint32OfBytes d.header := by
      rw [length_append, length_take]
      omega
    have hfull : Holds d' (bytes ++ rest.take (uint32OfBytes d.header - bytes.length)).length
        (bytes ++ rest.take (uint32OfBytes d.header - bytes.length)) := by
      rw [hpay]
      exact hd'
    refine ⟨_, rest.drop (uint32OfBytes d.header - bytes.length), d'.clear, ?_, hpay, ?_,
      ⟨hst'.trans hst, hhdr' ▸ hhdr, .inl ⟨rfl, ?_, ?_⟩⟩, hmax'⟩
    · have hblo := hfull.payload (by omega)
      rw [hpay] at hblo
      rw [FrameDecoder.readPayload, heq]
      simp only
      rw [if_pos (hd'.1.trans hpay), hblo]
    · rw [append_assoc, take_append_drop]
    · change d'.headerLength < 4
      omega
    · change [] = d'.header.take d'.headerLength
      rw [hlen', hlen, take_zero]

theorem readPayload_round {bytes : Bytes} (hst : d.state = .open_)
    (hhdr : d.header.length = 4) (hlen : d.headerLength = 0)
    (hexp : d.expectedPayloadLength = some (uint32OfBytes d.header)) (hlim : uint32OfBytes d.header ≤ d.maxFrameLength)
    (hsho : bytes.length < uint32OfBytes d.header) (hhol : Holds d (uint32OfBytes d.header) bytes) {chunk : Bytes}
    (hchk : rest.length < chunk.length ∨ rest = chunk) :
    RoundResult d.maxFrameLength (d.header ++ (bytes ++ rest)) chunk
      (let r := d.readPayload (uint32OfBytes d.header) rest; (.ok r.1, r.2))
      (firstFrame d.maxFrameLength (d.header ++ (bytes ++ rest))) := by
  obtain ⟨hmore, hdone⟩ := readPayload_result rest hst hhdr hlen hexp hlim
    hsho hhol
  by_cases hlt : rest.length + bytes.length < uint32OfBytes d.header
  · obtain ⟨d', heq, hrds, hmax⟩ := hmore hlt
    rw [firstFrame_of_short hhdr hlim (by rw [length_append]; omega), heq]
    exact ⟨d', rfl, hrds, hmax⟩
  · obtain ⟨payload, rest', d', heq, hpay, happ, hrds, hmax⟩ := hdone (by omega)
    have hfst : firstFrame d.maxFrameLength (d.header ++ (bytes ++ rest)) = .frame payload rest' := by
      rw [happ]
      exact firstFrame_eq_frame.mpr ⟨d.header, hhdr, hpay.symm, by omega, rfl⟩
    rw [hfst, heq]
    have hshor : rest'.length < rest.length := by
      have := congrArg List.length happ
      simp only [length_append] at this
      omega
    refine ⟨d', rfl, hrds, hmax, ?_⟩
    rcases hchk with hchk | rfl
    · omega
    · exact hshor

theorem setBytes_header {header : Bytes} {headerLength : ℕ} (hhdr : header.length = 4)
    (hlen : headerLength < 4) {k : ℕ} (hk : k ≤ 4 - headerLength) (hrest : k ≤ rest.length) :
    (setBytes header (rest.take k) headerLength).length = 4 ∧
      (setBytes header (rest.take k) headerLength).take (headerLength + k) = header.take headerLength ++ rest.take k := by
  have htake : (rest.take k).length = k := length_take_of_le hrest
  have hset : headerLength + (rest.take k).length ≤ header.length := by omega
  obtain ⟨hpre, hleng⟩ := take_setBytes hset
  rw [htake] at hpre
  exact ⟨hleng.trans hhdr, hpre⟩

theorem Reads.round (h : Reads d pending) (hrest : rest ≠ []) :
    RoundResult d.maxFrameLength (pending ++ rest) rest (d.round rest)
      (firstFrame d.maxFrameLength (pending ++ rest)) := by
  have hpos : 0 < rest.length := length_pos_iff.mpr hrest
  rcases h.pending with ⟨hexp, hlen, rfl⟩ |
    ⟨hexp, hlen, hlim, bytes, hsho, hhol, rfl⟩
  · obtain ⟨k, hk⟩ : ∃ k, k = min (4 - d.headerLength) rest.length := ⟨_, rfl⟩
    have hk4 : k ≤ 4 - d.headerLength := by omega
    have hkrest : k ≤ rest.length := by omega
    obtain ⟨hhdr, hpre⟩ := setBytes_header h.header hlen hk4 hkrest
    set header := setBytes d.header (rest.take k) d.headerLength with hdef
    rw [FrameDecoder.round, hexp]
    simp only [frameHeaderLength, ← hk, ← hdef]
    split_ifs with hpart hover hzero
    · -- the header is not complete, and the chunk is at its end
      have hkall : k = rest.length := by omega
      have htot : (d.header.take d.headerLength ++ rest).length < 4 := by
        rw [length_append, length_take]
        omega
      rw [firstFrame, if_pos htot, hkall, drop_length]
      refine ⟨_, rfl, ⟨h.state, hhdr, .inl ⟨rfl, hkall ▸ hpart, ?_⟩⟩, rfl⟩
      rw [hkall, take_length] at hpre
      exact hpre.symm
    all_goals
      have htot : d.header.take d.headerLength ++ rest = header ++ rest.drop k := by
        rw [← take_of_length_le (Nat.le_of_eq hhdr),
          show (4 : ℕ) = d.headerLength + k by omega, hpre, append_assoc, take_append_drop]
      rw [htot]
    · rw [firstFrame_of_overLimit hhdr hover]
      exact ⟨_, rfl, rfl⟩
    · have hfst : firstFrame d.maxFrameLength (header ++ rest.drop k) = .frame [] (rest.drop k) :=
        firstFrame_eq_frame.mpr ⟨header, hhdr, hzero, Nat.zero_le _, rfl⟩
      rw [hfst]
      refine ⟨_, rfl, ⟨h.state, hhdr, .inl ⟨rfl, Nat.zero_lt_succ 3, rfl⟩⟩, rfl, ?_⟩
      rw [length_drop]
      omega
    · set d₁ : FrameDecoder := { ({ d with header, headerLength := 0 } : FrameDecoder).clear with
        expectedPayloadLength := some (uint32OfBytes header) } with hd₁
      have hemp : Holds d₁ (uint32OfBytes d₁.header) [] := ⟨rfl, .inl ⟨rfl, rfl, rfl⟩⟩
      have hshor : (rest.drop k).length < rest.length := by
        rw [length_drop]
        omega
      have hsho : ([] : Bytes).length < uint32OfBytes d₁.header := Nat.pos_of_ne_zero hzero
      exact readPayload_round (d := d₁) h.state hhdr rfl rfl (Nat.le_of_not_lt hover) hsho
        hemp (.inl hshor)
  · rw [FrameDecoder.round, hexp, append_assoc]
    exact readPayload_round h.state h.header hlen hexp hlim hsho hhol (.inr rfl)

theorem Reads.pushLoop {n : ℕ} (h : Reads d pending) (frames : List Bytes) (hn : rest.length ≤ n) :
    match parseFrames d.maxFrameLength (pending ++ rest) with
    | (frames', .rest rest') => ∃ d', FrameDecoder.pushLoop n d rest frames =
        (.ok (frames ++ frames'), d') ∧ Reads d' rest' ∧ d'.maxFrameLength = d.maxFrameLength
    | (_, .overLimit _) => ∃ message d', FrameDecoder.pushLoop n d rest frames =
        (.error message, d') ∧ d'.state = .failed := by
  induction n generalizing d pending rest frames with
  | zero =>
    obtain rfl : rest = [] := length_eq_zero_iff.mp (by omega)
    rw [append_nil, parseFrames_of_unfinished h.unfinished]
    exact ⟨d, by simp [FrameDecoder.pushLoop], h, rfl⟩
  | succ n ih =>
    rw [FrameDecoder.pushLoop]
    split_ifs with hrest
    · rw [hrest, append_nil, parseFrames_of_unfinished h.unfinished]
      exact ⟨d, by simp, h, rfl⟩
    · have hrou := h.round hrest
      cases hfst : firstFrame d.maxFrameLength (pending ++ rest) with
      | unfinished =>
        rw [hfst] at hrou
        obtain ⟨d', heq, hrds, hmax⟩ := hrou
        have hnil : ([] : Bytes).length ≤ n := Nat.zero_le n
        have hloop := ih hrds (frames ++ Option.toList none) hnil
        rw [append_nil, hmax, parseFrames_of_unfinished hfst] at hloop
        obtain ⟨d'', heq', hrds', hmax'⟩ := hloop
        rw [parseFrames_of_unfinished hfst, heq]
        exact ⟨d'', by simpa using heq', hrds', hmax'⟩
      | frame payload rest' =>
        rw [hfst] at hrou
        obtain ⟨d', heq, hrds, hmax, hshor⟩ := hrou
        have hloop := ih hrds (frames ++ [payload]) (Nat.le_of_lt_succ (Nat.lt_of_lt_of_le hshor hn))
        rw [parseFrames_of_frame hfst, heq]
        rw [nil_append, hmax] at hloop
        cases hprs : parseFrames d.maxFrameLength rest' with
        | mk frames' tail =>
          rw [hprs] at hloop
          cases tail with
          | rest bytes => simpa using hloop
          | overLimit frameLength => exact hloop
      | overLimit frameLength =>
        rw [hfst] at hrou
        obtain ⟨d', heq, hfail⟩ := hrou
        rw [parseFrames_of_overLimit hfst, heq]
        exact ⟨_, d', rfl, hfail⟩

theorem Reads.push (h : Reads d pending) (chunk : Bytes) :
    match parseFrames d.maxFrameLength (pending ++ chunk) with
    | (frames, .rest rest') => ∃ d', d.push chunk = (.ok frames, d') ∧ Reads d' rest' ∧
        d'.maxFrameLength = d.maxFrameLength
    | (_, .overLimit _) => ∃ message d', d.push chunk = (.error message, d') ∧ d'.state = .failed := by
  rw [FrameDecoder.push, h.state]
  exact h.pushLoop [] (Nat.le_refl chunk.length)

theorem Reads.end_ (h : Reads d pending) : d.end_.1 = .ok () ↔ pending = [] := by
  rw [FrameDecoder.end_, h.state]
  rcases h.pending with ⟨hexp, hlen, rfl⟩ | ⟨hexp, hlen, -, bytes, -, -, rfl⟩
  · have hhdr := h.header
    by_cases hzero : d.headerLength = 0
    · simp [hexp, hzero]
    · have hne : d.header ≠ [] := by
        rintro hnil
        rw [hnil] at hhdr
        cases hhdr
      simp [hzero, hne]
  · have hne : d.header ≠ [] := by
      rintro hnil
      have hhdr := h.header
      rw [hnil] at hhdr
      cases hhdr
    simp [hexp, hne]

theorem Reads.pushAll {chunks : List Bytes} {tail : Bytes} (h : Reads d pending)
    (hprs : parseFrames d.maxFrameLength (pending ++ chunks.flatten) = (frames, .rest tail)) :
    ∃ (returned : List (List Bytes)) (d' : FrameDecoder),
      d.pushAll chunks = (returned.map Except.ok, d') ∧ returned.flatten = frames ∧ Reads d' tail := by
  induction chunks generalizing d pending frames with
  | nil =>
    rw [flatten_nil, append_nil, parseFrames_of_unfinished h.unfinished] at hprs
    cases hprs
    exact ⟨[], d, rfl, rfl, h⟩
  | cons chunk chunks ih =>
    have hpush := h.push chunk
    rw [flatten_cons, ← append_assoc] at hprs
    cases hchk : parseFrames d.maxFrameLength (pending ++ chunk) with
    | mk frames₁ tail₁ =>
      rw [hchk] at hpush
      cases tail₁ with
      | overLimit frameLength =>
        rw [parseFrames_overLimit_append _ hchk] at hprs
        cases hprs
      | rest rest₁ =>
        obtain ⟨d₁, heq, h₁, hmax⟩ := hpush
        rw [parseFrames_append _ hchk] at hprs
        obtain ⟨rfl, htail⟩ := Prod.mk.inj hprs
        obtain ⟨returned, d', heq', hret, h'⟩ := ih h₁ (by rw [hmax]; exact Prod.ext rfl htail)
        refine ⟨frames₁ :: returned, d', ?_, ?_, h'⟩
        · rw [FrameDecoder.pushAll, heq]
          simp only [heq', map_cons]
        · rw [flatten_cons, hret]
end

/-! ### Failure is final -/

section
variable {d d' : FrameDecoder}

theorem state_of_round_error (h : d.round rest = (.error message, d')) : d'.state = .failed := by
  unfold FrameDecoder.round at h
  split at h
  · cases h
  · simp only at h
    split_ifs at h
    · cases h
    · cases h
      rfl
    · cases h
    · cases h

theorem state_of_pushLoop_error {n : ℕ}
    (h : FrameDecoder.pushLoop n d rest frames = (.error message, d')) : d'.state = .failed := by
  induction n generalizing d rest frames with
  | zero => cases h
  | succ n ih =>
    rw [FrameDecoder.pushLoop] at h
    split_ifs at h
    · cases h
    · split at h
      · rename_i hrou
        cases h
        exact state_of_round_error hrou
      · exact ih h

theorem call_of_not_open (h : d.state ≠ .open_) (c : FrameDecoder.Call) :
    (∃ message, (d.call c).1 = .error message) ∧ (d.call c).2 = d := by
  cases hst : d.state with
  | open_ => exact absurd hst h
  | ended | failed => cases c <;> simp [FrameDecoder.call, FrameDecoder.push, FrameDecoder.end_, hst, Except.map]

theorem not_open_of_call_error {c : FrameDecoder.Call}
    (h : (d.call c).1 = .error message) : (d.call c).2.state ≠ .open_ := by
  by_cases hst : d.state = .open_
  · cases c with
    | push chunk =>
      have hpush : d.push chunk = FrameDecoder.pushLoop chunk.length d chunk [] := by
        rw [FrameDecoder.push, hst]
      change (d.push chunk).2.state ≠ .open_
      rw [state_of_pushLoop_error (hpush.symm.trans (Prod.ext h rfl))]
      decide
    | end_ =>
      change (d.end_).2.state ≠ .open_
      rw [FrameDecoder.end_, hst]
      simp only
      split_ifs <;> simp [FrameDecoder.fail]
  · rw [(call_of_not_open hst c).2]
    exact hst

theorem callAll_of_not_open (h : d.state ≠ .open_) (calls : List FrameDecoder.Call) :
    ∀ result ∈ d.callAll calls, ∃ message, result = .error message := by
  induction calls with
  | nil => simp [FrameDecoder.callAll]
  | cons c calls ih =>
    intro result hres
    obtain ⟨herr, hsame⟩ := call_of_not_open h c
    rw [FrameDecoder.callAll, hsame] at hres
    rcases mem_cons.mp hres with rfl | hmem
    · exact herr
    · exact ih result hmem

theorem callAll_pairwise (calls : List FrameDecoder.Call) : (d.callAll calls).Pairwise fun result later =>
      (∃ message, result = .error message) → ∃ message, later = .error message := by
  induction calls generalizing d with
  | nil => exact .nil
  | cons c calls ih =>
    refine .cons (fun later hlat hfail => ?_) ih
    obtain ⟨message, hmsg⟩ := hfail
    exact callAll_of_not_open (not_open_of_call_error hmsg) calls later hlat
end

theorem reads_new {maxFrameLength : Option Double} {d : FrameDecoder} (h : FrameDecoder.new maxFrameLength = .ok d) :
    Reads d [] ∧ d.maxFrameLength ≤ maxUint32 := by
  unfold FrameDecoder.new at h
  cases hlim : resolveMaxFrameLength maxFrameLength with
  | error message =>
    rw [hlim] at h
    cases h
  | ok limit =>
    rw [hlim] at h
    cases h
    refine ⟨⟨rfl, rfl, .inl ⟨rfl, Nat.zero_lt_succ 3, rfl⟩⟩, ?_⟩
    exact resolveMaxFrameLength_le hlim

/-- **Chunking does not matter.** For every decoder: the payloads of
concatenated frames within the limit come back, whatever the chunks, and the
end is accepted; so do the frames of any stream in which no length exceeds the limit,
and the end is accepted exactly if it has whole frames only; and after a call
that failed every call fails. -/
theorem frame_decoder_chunking (maxFrameLength : Option Double) (d : FrameDecoder)
    (hnew : FrameDecoder.new maxFrameLength = .ok d) :
    (∀ payloads : List Bytes, (∀ payload ∈ payloads, payload.length ≤ d.maxFrameLength) →
      ∃ wires, payloads.mapM encodeFrame = .ok wires ∧ ∀ chunks : List Bytes, chunks.flatten = wires.flatten →
          ∃ (returned : List (List Bytes)) (d' : FrameDecoder),
            d.pushAll chunks = (returned.map Except.ok, d') ∧ returned.flatten = payloads ∧ d'.end_.1 = .ok ()) ∧
    (∀ (bytes : Bytes) (frames : List Bytes) (tail : Bytes),
      parseFrames d.maxFrameLength bytes = (frames, .rest tail) → ∀ chunks : List Bytes, chunks.flatten = bytes →
        ∃ (returned : List (List Bytes)) (d' : FrameDecoder),
          d.pushAll chunks = (returned.map Except.ok, d') ∧ returned.flatten = frames ∧
            (d'.end_.1 = .ok () ↔ tail = [])) ∧
    (∀ calls : List FrameDecoder.Call, (d.callAll calls).Pairwise fun result later =>
      (∃ message, result = .error message) → ∃ message, later = .error message) := by
  obtain ⟨hrds, hmax⟩ := reads_new hnew
  refine ⟨fun payloads hpayl => ?_, fun bytes frames tail hprs chunks hchu => ?_, callAll_pairwise⟩
  · obtain ⟨wires, hwir, hprs⟩ := parseFrames_encoded hmax hpayl
    refine ⟨wires, hwir, fun chunks hchu => ?_⟩
    rw [← hchu] at hprs
    obtain ⟨returned, d', heq, hret, hrds'⟩ := hrds.pushAll hprs
    exact ⟨returned, d', heq, hret, hrds'.end_.mpr rfl⟩
  · rw [← hchu] at hprs
    obtain ⟨returned, d', heq, hret, hrds'⟩ := hrds.pushAll hprs
    exact ⟨returned, d', heq, hret, hrds'.end_⟩

/-- Two frames in three chunks: the decoder with the default limit. -/
theorem frame_decoder_chunking_default : ∃ (returned : List (List Bytes)) (d' : FrameDecoder),
      ({ maxFrameLength := defaultMaxFrameLength } : FrameDecoder).pushAll
          [[0, 0, 0], [], [1, 7, 0, 0, 0, 0]] = (returned.map Except.ok, d') ∧
        returned.flatten = [[7], []] ∧ d'.end_.1 = .ok () := by
  obtain ⟨wires, hwir, h⟩ := (frame_decoder_chunking none _ rfl).1 [[7], []] (by decide)
  obtain rfl : wires = [[0, 0, 0, 1, 7], [0, 0, 0, 0]] := Except.ok.inj (hwir.symm.trans rfl)
  exact h _ rfl

end EasyPi.Protocol
