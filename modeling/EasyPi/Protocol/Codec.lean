/-
# Messages

`packages/protocol/src/codec.ts`: a message is a value that the schema of its
sender accepts, encoded as CBOR in a frame. The schemas are a parameter: the
predicate `check` is `Check` of the schema of the client's or of the server's
messages. Arrays have no holes here.

What a decoder delivers depends on the frames of the stream (`deliverable`):
the messages of the frames before the first that is no message, or fewer, if
a chunk that ends later fails.
-/
import EasyPi.Protocol.CborRoundTrip

namespace EasyPi.Protocol

open List

variable {σ : Type}

mutual
def isProtocolValue (optionalProperty : Bool) : Value σ → Bool
  | .undefined => optionalProperty
  | .null | .boolean _ | .number _ | .string _ => true
  | .array items => areProtocolItems items
  | .object properties => areProtocolProperties properties
  | .bytes _ | .other _ => false

def areProtocolItems : List (Value σ) → Bool
  | [] => true
  | item :: items => isProtocolValue false item && areProtocolItems items

def areProtocolProperties : List (σ × Value σ) → Bool
  | [] => true
  | (_, value) :: properties => isProtocolValue true value && areProtocolProperties properties
end

inductive Peer where
  | client
  | server

def Peer.kind : Peer → String
  | .client => "client"
  | .server => "server"

def parseMessage (peer : Peer) (check : Value σ → Bool) (value : Value σ) : Except String (Value σ) :=
  if !isProtocolValue false value || !check value then
    .error s!"Invalid {peer.kind} protocol message"
  else .ok value

variable (check : Value σ → Bool)

def parseClientMessage : Value σ → Except String (Value σ) := parseMessage .client check

def parseServerMessage : Value σ → Except String (Value σ) := parseMessage .server check

def boundedErrorMessage (message : String) : String :=
  if message.length ≤ 500 then message else (message.take 497).toString ++ "..."

/-- `options?.maxFrameLength ?? DEFAULT_MAX_FRAME_LENGTH`. -/
def frameLimit (maxFrameLength : Option Double) : Double := maxFrameLength.getD (.ofInt defaultMaxFrameLength)

section
variable [DecidableEq σ] (text : Text σ)

def frameMessage (validated : Value σ) (maxFrameLength : Option Double) : Except String Bytes := do
  let limit := frameLimit maxFrameLength
  let payload ← encodeCbor text validated { maxByteLength := some limit }
  let frame ← encodeFrame payload
  let _ ← assertCompleteFrame frame (some limit)
  return frame

def encodeProtocolMessage (value : Value σ) (parse : Value σ → Except String (Value σ))
    (kind : String) (maxFrameLength : Option Double) : Except String Bytes :=
  match parse value with
  | .error message => .error message
  | .ok validated =>
    match frameMessage text validated maxFrameLength with
    | .ok frame => .ok frame
    | .error message =>
      .error s!"Unable to encode {kind} protocol message: {boundedErrorMessage message}"

def encodeClientMessage (check : Value σ → Bool) (message : Value σ)
    (maxFrameLength : Option Double) : Except String Bytes :=
  encodeProtocolMessage text message (parseClientMessage check) "client" maxFrameLength

def encodeServerMessage (check : Value σ → Bool) (message : Value σ)
    (maxFrameLength : Option Double) : Except String Bytes :=
  encodeProtocolMessage text message (parseServerMessage check) "server" maxFrameLength

def encodeMessage : Peer → (Value σ → Bool) → Value σ → Option Double → Except String Bytes
  | .client => encodeClientMessage text
  | .server => encodeServerMessage text
end

structure ValidatedMessageDecoder (σ : Type) where
  failed : Bool := false
  frames : FrameDecoder
  kind : String
  maxFrameLength : Double
  parse : Value σ → Except String (Value σ)

namespace ValidatedMessageDecoder

/-- `new ValidatedMessageDecoder(kind, parse, options)`. -/
def new (kind : String) (parse : Value σ → Except String (Value σ))
    (maxFrameLength : Option Double) : Except String (ValidatedMessageDecoder σ) :=
  (FrameDecoder.new maxFrameLength).map fun frames =>
    { frames, kind, maxFrameLength := frameLimit maxFrameLength, parse }

section
variable [DecidableEq σ] (text : Text σ) (d : ValidatedMessageDecoder σ)

/-- The message of a frame, or the text of the error. -/
def decodeFrame (frame : Bytes) : Except String (Value σ) :=
  match decodeCbor text frame { maxByteLength := some d.maxFrameLength } with
  | .ok value => d.parse value
  | .error message => .error s!"Invalid {d.kind} protocol frame: {boundedErrorMessage message}"

def push (chunk : Bytes) : Except String (List (Value σ)) × ValidatedMessageDecoder σ :=
  if d.failed then (.error s!"{d.kind} message decoder has failed", d)
  else
    match d.frames.push chunk with
    | (.error message, frames) =>
      (.error s!"Invalid {d.kind} protocol frame: {boundedErrorMessage message}", { d with frames, failed := true })
    | (.ok chunkFrames, frames) =>
      match chunkFrames.mapM (d.decodeFrame text) with
      | .ok messages => (.ok messages, { d with frames })
      | .error message => (.error message, { d with frames, failed := true })

def end_ : Except String Unit × ValidatedMessageDecoder σ :=
  if d.failed then (.error s!"{d.kind} message decoder has failed", d)
  else
    match d.frames.end_ with
    | (.ok _, frames) => (.ok (), { d with frames })
    | (.error message, frames) =>
      (.error s!"Invalid {d.kind} protocol framing: {boundedErrorMessage message}", { d with frames, failed := true })

/-- The results of pushing chunks one after the other. -/
def pushAll (d : ValidatedMessageDecoder σ) :
    List Bytes → List (Except String (List (Value σ))) × ValidatedMessageDecoder σ
  | [] => ([], d)
  | chunk :: chunks =>
    let (result, d) := d.push text chunk
    let (results, d) := pushAll d chunks
    (result :: results, d)
end

end ValidatedMessageDecoder

def createClientMessageDecoder (maxFrameLength : Option Double) :
    Except String (ValidatedMessageDecoder σ) :=
  ValidatedMessageDecoder.new "client" (parseClientMessage check) maxFrameLength

def createServerMessageDecoder (maxFrameLength : Option Double) :
    Except String (ValidatedMessageDecoder σ) :=
  ValidatedMessageDecoder.new "server" (parseServerMessage check) maxFrameLength

def createMessageDecoder : Peer → (Value σ → Bool) → Option Double → Except String (ValidatedMessageDecoder σ)
  | .client => createClientMessageDecoder
  | .server => createServerMessageDecoder

def delivered (results : List (Except String (List (Value σ)))) : List (Value σ) :=
  (results.map fun
    | .ok messages => messages
    | .error _ => []).flatten

/-- The stream in chunks, one for each frame and one for what is left. -/
def frameChunks (limit : ℕ) (bytes : Bytes) : List Bytes :=
  match _h : firstFrame limit bytes with
  | .frame _ rest => bytes.take (bytes.length - rest.length) :: frameChunks limit rest
  | .unfinished | .overLimit _ => [bytes]
termination_by bytes.length
decreasing_by exact length_lt_of_frame _h

section
variable {limit : ℕ} {bytes payload rest : Bytes}

theorem frameChunks_of_frame (h : firstFrame limit bytes = .frame payload rest) :
    frameChunks limit bytes = bytes.take (bytes.length - rest.length) :: frameChunks limit rest := by
  rw [frameChunks]
  split <;> simp_all

theorem frameChunks_of_not_frame
    (h : ∀ payload rest, firstFrame limit bytes ≠ .frame payload rest) : frameChunks limit bytes = [bytes] := by
  rw [frameChunks]
  split <;> simp_all

theorem flatten_frameChunks (limit : ℕ) (bytes : Bytes) : (frameChunks limit bytes).flatten = bytes := by
  induction hn : bytes.length using Nat.strongRecOn generalizing bytes with
  | ind n ih =>
    cases hfst : firstFrame limit bytes with
    | frame payload rest =>
      rw [frameChunks_of_frame hfst, flatten_cons, ih rest.length (hn ▸ length_lt_of_frame hfst) rest rfl]
      obtain ⟨header, -, -, -, rfl⟩ := firstFrame_eq_frame.mp hfst
      have hlen : (header ++ payload).length = (header ++ (payload ++ rest)).length - rest.length := by
        simp only [length_append]
        omega
      rw [← append_assoc, take_left' (by rw [hlen, append_assoc])]
    | unfinished => rw [frameChunks_of_not_frame (by simp [hfst]), flatten_singleton]
    | overLimit frameLength =>
      rw [frameChunks_of_not_frame (by simp [hfst]), flatten_singleton]

theorem parseFrames_take (h : firstFrame limit bytes = .frame payload rest) :
    parseFrames limit (bytes.take (bytes.length - rest.length)) = ([payload], .rest []) := by
  obtain ⟨header, hhdr, hleng, hlim, rfl⟩ := firstFrame_eq_frame.mp h
  have hchk : (header ++ (payload ++ rest)).take
      ((header ++ (payload ++ rest)).length - rest.length) = header ++ (payload ++ []) := by
    rw [append_nil, ← append_assoc, take_left']
    simp only [length_append]
    omega
  have hfst : firstFrame limit (header ++ (payload ++ [])) = .frame payload [] :=
    firstFrame_eq_frame.mpr ⟨header, hhdr, hleng, hlim, rfl⟩
  have hnil : firstFrame limit [] = .unfinished := by simp [firstFrame]
  rw [hchk, parseFrames_of_frame hfst, parseFrames_of_unfinished hnil]
end

/-! ### What is delivered -/

/-- The messages of frames before the first that is none. -/
def deliverable (decode : Bytes → Except String (Value σ)) : List Bytes → List (Value σ)
  | [] => []
  | frame :: frames =>
    match decode frame with
    | .ok message => message :: deliverable decode frames
    | .error _ => []

section
variable {decode : Bytes → Except String (Value σ)} {frames frames' : List Bytes} {messages : List (Value σ)}

theorem deliverable_append (h : frames.mapM decode = .ok messages) :
    deliverable decode (frames ++ frames') = messages ++ deliverable decode frames' := by
  induction frames generalizing messages with
  | nil =>
    cases h
    rfl
  | cons frame frames ih =>
    rw [mapM_cons] at h
    obtain ⟨message, hmsg, h⟩ := bind_ok_iff.mp h
    obtain ⟨messages', hmsgs', h⟩ := bind_ok_iff.mp h
    cases h
    rw [cons_append, deliverable, hmsg, ih hmsgs']
    rfl

theorem mapM_append_ok (h : (frames ++ frames').mapM decode = .ok messages) :
    ∃ first rest, frames.mapM decode = .ok first ∧ frames'.mapM decode = .ok rest ∧ messages = first ++ rest := by
  rw [mapM_append] at h
  obtain ⟨first, hfst, h⟩ := bind_ok_iff.mp h
  obtain ⟨rest, hrest, h⟩ := bind_ok_iff.mp h
  cases h
  exact ⟨first, rest, hfst, hrest, rfl⟩
end

section
variable [DecidableEq σ] {text : Text σ} {d : ValidatedMessageDecoder σ} {pending : Bytes}

omit [DecidableEq σ] in
theorem delivered_cons (result : Except String (List (Value σ))) (results : List (Except String (List (Value σ)))) :
    delivered (result :: results) = (match result with
        | .ok messages => messages
        | .error _ => []) ++ delivered results := rfl

theorem delivered_of_failed (h : d.failed = true) (chunks : List Bytes) : delivered (d.pushAll text chunks).1 = [] := by
  induction chunks with
  | nil => rfl
  | cons chunk chunks ih =>
    have hpush : d.push text chunk = (.error s!"{d.kind} message decoder has failed", d) := by
      rw [ValidatedMessageDecoder.push, if_pos h]
    rw [ValidatedMessageDecoder.pushAll, hpush]
    exact ih

/-- What a push of an open decoder does: it fails, because of a frame that is
too long or no message, or it returns the messages of the frames that the
chunk completes. -/
theorem push_cases (hfail : d.failed = false) (h : Reads d.frames pending) (chunk : Bytes) :
    (∃ message d', d.push text chunk = (.error message, d') ∧ d'.failed = true ∧
      ((∃ frames frameLength, parseFrames d.frames.maxFrameLength (pending ++ chunk) =
          (frames, .overLimit frameLength)) ∨ ∃ frames rest, parseFrames d.frames.maxFrameLength (pending ++ chunk) =
          (frames, .rest rest) ∧ frames.mapM (d.decodeFrame text) = .error message)) ∨
    (∃ frames rest messages d', parseFrames d.frames.maxFrameLength (pending ++ chunk) =
        (frames, .rest rest) ∧ frames.mapM (d.decodeFrame text) = .ok messages ∧
        d.push text chunk = (.ok messages, d') ∧ d'.failed = false ∧ Reads d'.frames rest ∧
        d'.frames.maxFrameLength = d.frames.maxFrameLength ∧ d'.decodeFrame text = d.decodeFrame text) := by
  have hpush := h.push chunk
  rw [ValidatedMessageDecoder.push, hfail]
  simp only [Bool.false_eq_true, if_false]
  cases hprs : parseFrames d.frames.maxFrameLength (pending ++ chunk) with
  | mk frames tail =>
    rw [hprs] at hpush
    cases tail with
    | overLimit frameLength =>
      obtain ⟨message, frames', heq, -⟩ := hpush
      rw [heq]
      exact .inl ⟨_, _, rfl, rfl, .inl ⟨frames, frameLength, rfl⟩⟩
    | rest rest =>
      obtain ⟨frames', heq, hrds, hmax⟩ := hpush
      rw [heq]
      simp only
      cases hmsgs : frames.mapM (d.decodeFrame text) with
      | error message => exact .inl ⟨_, _, rfl, rfl, .inr ⟨frames, rest, rfl, hmsgs⟩⟩
      | ok messages =>
        exact .inr ⟨frames, rest, messages, _, rfl, hmsgs, rfl, rfl, hrds, hmax, rfl⟩

theorem delivered_prefix (text : Text σ) (chunks : List Bytes) (hfail : d.failed = false) (h : Reads d.frames pending) :
    delivered (d.pushAll text chunks).1 <+:
      deliverable (d.decodeFrame text) (parseFrames d.frames.maxFrameLength (pending ++ chunks.flatten)).1 := by
  induction chunks generalizing d pending with
  | nil => exact nil_prefix
  | cons chunk chunks ih =>
    rw [ValidatedMessageDecoder.pushAll]
    rcases push_cases hfail h chunk with ⟨message, d', hpush, hd', -⟩ |
      ⟨frames, rest, messages, d', hprs, hmsgs, hpush, hd', hrds, hmax, hdec⟩
    · rw [hpush]
      simp only [delivered_cons, delivered_of_failed hd']
      exact nil_prefix
    · rw [hpush, flatten_cons, ← append_assoc, parseFrames_append _ hprs]
      simp only [delivered_cons]
      rw [deliverable_append hmsgs, prefix_append_right_inj, ← hmax, ← hdec]
      exact ih hd' hrds

theorem delivered_frameChunks {bytes : Bytes} (hfail : d.failed = false) (h : Reads d.frames []) :
    delivered (d.pushAll text (frameChunks d.frames.maxFrameLength bytes)).1 =
      deliverable (d.decodeFrame text) (parseFrames d.frames.maxFrameLength bytes).1 := by
  induction hn : bytes.length using Nat.strongRecOn generalizing bytes d with
  | ind n ih =>
    cases hfst : firstFrame d.frames.maxFrameLength bytes with
    | frame payload rest =>
      rw [frameChunks_of_frame hfst, parseFrames_of_frame hfst, deliverable]
      set chunk := bytes.take (bytes.length - rest.length) with hchk
      have hprs : parseFrames d.frames.maxFrameLength ([] ++ chunk) = ([payload], .rest []) := parseFrames_take hfst
      rw [ValidatedMessageDecoder.pushAll]
      rcases push_cases hfail h chunk with ⟨message, d', hpush, hd', hwhy⟩ |
        ⟨frames, rest', messages, d', hprs', hmsgs, hpush, hd', hrds, hmax, hdec⟩
      · rw [hpush]
        simp only [delivered_cons, delivered_of_failed hd']
        obtain ⟨frames, frameLength, hover⟩ | ⟨frames, rest', hfra, herr⟩ := hwhy
        · rw [hprs] at hover
          cases hover
        · rw [hprs] at hfra
          cases hfra
          cases hmsg : d.decodeFrame text payload with
          | error message => rfl
          | ok m =>
            rw [mapM_cons, hmsg] at herr
            cases herr
      · rw [hprs] at hprs'
        cases hprs'
        rw [mapM_cons] at hmsgs
        obtain ⟨m, hm, hmsgs⟩ := bind_ok_iff.mp hmsgs
        cases hmsgs
        rw [hpush, hm]
        simp only [delivered_cons]
        rw [← hmax, ← hdec, ih rest.length (hn ▸ length_lt_of_frame hfst) hd' hrds rfl]
        rfl
    | unfinished =>
      rw [frameChunks_of_not_frame (by simp [hfst])]
      have hpre := delivered_prefix text [bytes] hfail h
      rw [flatten_singleton, nil_append, parseFrames_of_unfinished hfst] at hpre
      rw [parseFrames_of_unfinished hfst]
      exact prefix_nil.mp hpre
    | overLimit frameLength =>
      rw [frameChunks_of_not_frame (by simp [hfst])]
      have hpre := delivered_prefix text [bytes] hfail h
      rw [flatten_singleton, nil_append, parseFrames_of_overLimit hfst] at hpre
      rw [parseFrames_of_overLimit hfst]
      exact prefix_nil.mp hpre

theorem pushAll_messages {chunks frames : List Bytes} {messages : List (Value σ)} {tail : Bytes}
    (hfail : d.failed = false) (h : Reads d.frames pending)
    (hprs : parseFrames d.frames.maxFrameLength (pending ++ chunks.flatten) = (frames, .rest tail))
    (hmsgs : frames.mapM (d.decodeFrame text) = .ok messages) :
    ∃ (returned : List (List (Value σ))) (d' : ValidatedMessageDecoder σ),
      d.pushAll text chunks = (returned.map Except.ok, d') ∧ returned.flatten = messages ∧
        d'.failed = false ∧ Reads d'.frames tail := by
  induction chunks generalizing d pending frames messages with
  | nil =>
    rw [flatten_nil, append_nil, parseFrames_of_unfinished h.unfinished] at hprs
    cases hprs
    cases hmsgs
    exact ⟨[], d, rfl, rfl, hfail, h⟩
  | cons chunk chunks ih =>
    rw [flatten_cons, ← append_assoc] at hprs
    rcases push_cases hfail h chunk with ⟨message, d', hpush, hd', hwhy⟩ |
      ⟨frames₁, rest₁, messages₁, d₁, hparse₁, hmessages₁, hpush, hd₁, hrds, hmax, hdec⟩
    · obtain ⟨frames₁, frameLength, hover⟩ | ⟨frames₁, rest₁, hfra, herr⟩ := hwhy
      · rw [parseFrames_overLimit_append _ hover] at hprs
        cases hprs
      · rw [parseFrames_append _ hfra] at hprs
        obtain ⟨rfl, -⟩ := Prod.mk.inj hprs
        obtain ⟨first, rest, hfst, -, -⟩ := mapM_append_ok hmsgs
        rw [herr] at hfst
        cases hfst
    · rw [parseFrames_append _ hparse₁] at hprs
      obtain ⟨rfl, htail⟩ := Prod.mk.inj hprs
      obtain ⟨first, rest, hfst, hrest, rfl⟩ := mapM_append_ok hmsgs
      rw [hmessages₁] at hfst
      cases hfst
      rw [← hmax] at htail hrest
      rw [← hdec] at hrest
      obtain ⟨returned, d', hpush', hret, hd', hrds'⟩ := ih hd₁ hrds (Prod.ext rfl htail) hrest
      refine ⟨messages₁ :: returned, d', ?_, ?_, hd', hrds'⟩
      · rw [ValidatedMessageDecoder.pushAll, hpush]
        simp only [hpush', map_cons]
      · rw [flatten_cons, hret]

omit [DecidableEq σ] in
theorem end_of_reads (hfail : d.failed = false) (h : Reads d.frames []) : d.end_.1 = .ok () := by
  have hend := h.end_.mpr rfl
  rw [ValidatedMessageDecoder.end_, hfail]
  simp only [Bool.false_eq_true, if_false]
  cases hfra : d.frames.end_ with
  | mk result frames =>
    rw [hfra] at hend
    cases hend
    rfl

theorem pushAll_of_failed (h : d.failed = true) (chunks : List Bytes) :
    ∀ result ∈ (d.pushAll text chunks).1, ∃ message, result = .error message := by
  induction chunks with
  | nil => simp [ValidatedMessageDecoder.pushAll]
  | cons chunk chunks ih =>
    have hpush : d.push text chunk = (.error s!"{d.kind} message decoder has failed", d) := by
      rw [ValidatedMessageDecoder.push, if_pos h]
    rw [ValidatedMessageDecoder.pushAll, hpush]
    intro result hresu
    rcases mem_cons.mp hresu with rfl | hmem
    · exact ⟨_, rfl⟩
    · exact ih result hmem

theorem failed_of_push_error {chunk : Bytes} {message : String}
    (h : (d.push text chunk).1 = .error message) : (d.push text chunk).2.failed = true := by
  unfold ValidatedMessageDecoder.push at h ⊢
  split_ifs at h ⊢ with hfail
  · exact hfail
  · cases hpush : d.frames.push chunk with
    | mk result frames =>
      rw [hpush] at h
      cases result with
      | error message => rfl
      | ok chunkFrames =>
        simp only at h ⊢
        cases hmsgs : chunkFrames.mapM (d.decodeFrame text) with
        | error message => rfl
        | ok messages =>
          rw [hmsgs] at h
          cases h

theorem pushAll_pairwise (chunks : List Bytes) :
    (d.pushAll text chunks).1.Pairwise fun result later =>
      (∃ message, result = .error message) → ∃ message, later = .error message := by
  induction chunks generalizing d with
  | nil => exact .nil
  | cons chunk chunks ih =>
    refine .cons (fun later hlat hfail => ?_) ih
    obtain ⟨message, hmsg⟩ := hfail
    exact pushAll_of_failed (failed_of_push_error hmsg) chunks later hlat
end

/-! ### Messages that are encoded -/

theorem areProtocolProperties_cons {key : σ} {value : Value σ} {properties : List (σ × Value σ)} :
    areProtocolProperties ((key, value) :: properties) = true ↔
      isProtocolValue true value = true ∧ areProtocolProperties properties = true := by
  rw [areProtocolProperties, Bool.and_eq_true]

mutual
theorem isProtocolValue_strip : ∀ (value : Value σ) (optionalProperty : Bool),
    isProtocolValue optionalProperty value = true → isProtocolValue optionalProperty (stripUndefined value) = true
  | .undefined, _, h => h
  | .null, _, h => h
  | .boolean _, _, h => h
  | .number _, _, h => h
  | .string _, _, h => h
  | .bytes _, _, h => h
  | .other _, _, h => h
  | .array items, _, h => by
    rw [isProtocolValue] at h
    rw [stripUndefined, isProtocolValue]
    exact areProtocolItems_strip items h
  | .object properties, _, h => by
    rw [isProtocolValue] at h
    rw [stripUndefined, isProtocolValue]
    exact areProtocolProperties_strip properties h

theorem areProtocolItems_strip : ∀ items : List (Value σ),
    areProtocolItems items = true → areProtocolItems (stripItems items) = true
  | [], h => h
  | item :: items, h => by
    rw [areProtocolItems, Bool.and_eq_true] at h
    rw [stripItems, areProtocolItems, Bool.and_eq_true]
    exact ⟨isProtocolValue_strip item false h.1, areProtocolItems_strip items h.2⟩

theorem areProtocolProperties_strip : ∀ properties : List (σ × Value σ), areProtocolProperties properties = true →
      areProtocolProperties (stripEntries properties) = true
  | [], h => h
  | (key, value) :: properties, h => by
    obtain ⟨hvl, hrest⟩ := areProtocolProperties_cons.mp h
    cases hund : value.isUndefined with
    | true =>
      obtain rfl := eq_undefined hund
      exact areProtocolProperties_strip properties hrest
    | false =>
      rw [stripEntries_cons hund]
      exact areProtocolProperties_cons.mpr
        ⟨isProtocolValue_strip value true hvl, areProtocolProperties_strip properties hrest⟩
end

section
variable {peer : Peer} {check : Value σ → Bool} {value message : Value σ}

theorem parseMessage_eq_ok :
    parseMessage peer check value = .ok message ↔
      isProtocolValue false value = true ∧ check value = true ∧ message = value := by
  unfold parseMessage
  split_ifs with h
  · constructor
    · intro h'
      cases h'
    · rintro ⟨hvl, hcheck, -⟩
      simp [hvl, hcheck] at h
  · rw [Bool.or_eq_true, not_or, Bool.not_eq_true', Bool.not_eq_false, Bool.not_eq_true', Bool.not_eq_false] at h
    constructor
    · intro h'
      cases h'
      exact ⟨h.1, h.2, rfl⟩
    · rintro ⟨-, -, rfl⟩
      rfl

variable (hcheck : ∀ value, check value = true → check (stripUndefined value) = true)

include hcheck in
theorem parseMessage_strip
    (h : parseMessage peer check value = .ok message) :
    parseMessage peer check (stripUndefined message) = .ok (stripUndefined message) := by
  obtain ⟨hvl, hche, rfl⟩ := parseMessage_eq_ok.mp h
  exact parseMessage_eq_ok.mpr ⟨isProtocolValue_strip _ false hvl, hcheck _ hche, rfl⟩
end

theorem resolveLimit_frameLimit {maxFrameLength : Option Double} {name : String} {limit limit' : ℕ}
    (h : resolveMaxFrameLength maxFrameLength = .ok limit)
    (h' : resolveLimit name (frameLimit maxFrameLength) maxUint32 = .ok limit') : limit' = limit := by
  have hvl : ∀ {name : String} {value : Double} {limit : ℕ},
      resolveLimit name value maxUint32 = .ok limit → value.toInt?.map Int.toNat = some limit := by
    intro name value limit h
    unfold resolveLimit at h
    split at h
    · rename_i n hn
      split_ifs at h
      cases h
      rw [hn]
      rfl
    · cases h
  cases maxFrameLength with
  | some value => exact Option.some.inj ((hvl h').symm.trans (hvl h))
  | none =>
    cases h
    have hdef : (frameLimit none).toInt?.map Int.toNat = some defaultMaxFrameLength := by
      rw [frameLimit, Option.getD_none, Double.toInt?_ofInt (by decide)]
      rfl
    exact Option.some.inj ((hvl h').symm.trans hdef)

section
variable [DecidableEq σ] {text : Text σ} {peer : Peer} {check : Value σ → Bool}
  {maxFrameLength : Option Double} {d : ValidatedMessageDecoder σ}

omit [DecidableEq σ] in
theorem createMessageDecoder_eq_ok
    (h : createMessageDecoder peer check maxFrameLength = .ok d) :
    d.failed = false ∧ Reads d.frames [] ∧ d.frames.maxFrameLength ≤ maxUint32 ∧
      resolveMaxFrameLength maxFrameLength = .ok d.frames.maxFrameLength ∧
      d.maxFrameLength = frameLimit maxFrameLength ∧ d.parse = parseMessage peer check := by
  have hnew : ∃ kind, ValidatedMessageDecoder.new kind (parseMessage peer check) maxFrameLength = .ok d := by
    cases peer with
    | client => exact ⟨_, h⟩
    | server => exact ⟨_, h⟩
  obtain ⟨kind, hnew⟩ := hnew
  unfold ValidatedMessageDecoder.new at hnew
  cases hfra : FrameDecoder.new maxFrameLength with
  | error message =>
    rw [hfra] at hnew
    cases hnew
  | ok frames =>
    rw [hfra] at hnew
    cases hnew
    obtain ⟨hrds, hmax⟩ := reads_new hfra
    refine ⟨rfl, hrds, hmax, ?_, rfl, rfl⟩
    unfold FrameDecoder.new at hfra
    cases hlim : resolveMaxFrameLength maxFrameLength with
    | error message =>
      rw [hlim] at hfra
      cases hfra
    | ok limit =>
      rw [hlim] at hfra
      cases hfra
      rfl

variable (hcheck : ∀ value, check value = true → check (stripUndefined value) = true)

include hcheck in
theorem encodeMessage_eq_ok
    (hd : createMessageDecoder peer check maxFrameLength = .ok d) {message : JsValue text}
    {wire : Bytes} (h : encodeMessage text peer check message.val maxFrameLength = .ok wire) :
    ∃ payload, encodeFrame payload = .ok wire ∧ payload.length ≤ d.frames.maxFrameLength ∧
      d.decodeFrame text payload = .ok (stripUndefined message.val) := by
  obtain ⟨-, -, -, hlim, hmax, hprs⟩ := createMessageDecoder_eq_ok hd
  have henc : ∃ kind, encodeProtocolMessage text message.val (parseMessage peer check) kind
      maxFrameLength = .ok wire := by
    cases peer with
    | client => exact ⟨_, h⟩
    | server => exact ⟨_, h⟩
  obtain ⟨kind, henc⟩ := henc
  unfold encodeProtocolMessage at henc
  cases hval : parseMessage peer check message.val with
  | error m =>
    rw [hval] at henc
    cases henc
  | ok validated =>
    obtain ⟨-, -, rfl⟩ := parseMessage_eq_ok.mp hval
    rw [hval] at henc
    simp only at henc
    cases hfrm : frameMessage text message.val maxFrameLength with
    | error m =>
      rw [hfrm] at henc
      cases henc
    | ok frame =>
      rw [hfrm] at henc
      cases henc
      obtain ⟨payload, hpay, hfrm⟩ := bind_ok_iff.mp hfrm
      obtain ⟨frame, hwire, hfrm⟩ := bind_ok_iff.mp hfrm
      obtain ⟨-, -, hfrm⟩ := bind_ok_iff.mp hfrm
      cases hfrm
      refine ⟨payload, hwire, ?_, ?_⟩
      · obtain ⟨resolved, hres, -, -, hlen⟩ := encodeCbor_eq_ok.mp hpay
        obtain ⟨maxByteLength, hbyt, hres⟩ := bind_ok_iff.mp hres
        obtain ⟨_, -, hres⟩ := bind_ok_iff.mp hres
        obtain ⟨_, -, hres⟩ := bind_ok_iff.mp hres
        cases hres
        rw [← resolveLimit_frameLimit hlim hbyt]
        exact hlen
      · rw [ValidatedMessageDecoder.decodeFrame, hmax, decodeCbor_encodeCbor message.property hpay, hprs]
        exact parseMessage_strip hcheck hval

include hcheck in
theorem encodeMessages_eq_ok
    (hd : createMessageDecoder peer check maxFrameLength = .ok d) {messages : List (JsValue text)}
    {wires : List Bytes}
    (h : messages.mapM (fun m => encodeMessage text peer check m.val maxFrameLength) = .ok wires) :
    ∃ payloads : List Bytes, payloads.mapM encodeFrame = .ok wires ∧
      (∀ payload ∈ payloads, payload.length ≤ d.frames.maxFrameLength) ∧
      payloads.mapM (d.decodeFrame text) = .ok (messages.map fun m => stripUndefined m.val) := by
  induction messages generalizing wires with
  | nil =>
    cases h
    exact ⟨[], rfl, by simp, rfl⟩
  | cons message messages ih =>
    rw [mapM_cons] at h
    obtain ⟨wire, hwire, h⟩ := bind_ok_iff.mp h
    obtain ⟨wires', hwir', h⟩ := bind_ok_iff.mp h
    cases h
    obtain ⟨payload, hfrm, hlen, hdec⟩ := encodeMessage_eq_ok hcheck hd hwire
    obtain ⟨payloads, hfra, hlens, hdeco⟩ := ih hwir'
    refine ⟨payload :: payloads, ?_, ?_, ?_⟩
    · rw [mapM_cons, hfrm, hfra]
      rfl
    · intro p hp
      rcases mem_cons.mp hp with rfl | hp
      · exact hlen
      · exact hlens p hp
    · rw [mapM_cons, hdec, hdeco]
      rfl
end

/-- **Messages are transported.** The decoder of a sender's messages returns the
messages whose frames it is given, whatever the chunks, without their
`undefined` properties, and ends; and of any stream it delivers, before it
fails, a prefix of what it delivers when each frame is a chunk, and nothing
after it has failed. -/
theorem message_transport [DecidableEq σ] (text : Text σ) (peer : Peer) (check : Value σ → Bool)
    (hcheck : ∀ value, check value = true → check (stripUndefined value) = true)
    (maxFrameLength : Option Double) (d : ValidatedMessageDecoder σ)
    (hd : createMessageDecoder peer check maxFrameLength = .ok d) :
    (∀ (messages : List (JsValue text)) (wires : List Bytes),
      messages.mapM (fun m => encodeMessage text peer check m.val maxFrameLength) = .ok wires →
      ∀ chunks : List Bytes, chunks.flatten = wires.flatten →
        ∃ (returned : List (List (Value σ))) (d' : ValidatedMessageDecoder σ),
          d.pushAll text chunks = (returned.map Except.ok, d') ∧
            returned.flatten = messages.map (fun m => stripUndefined m.val) ∧ d'.end_.1 = .ok ()) ∧
    (∀ (bytes : Bytes) (chunks : List Bytes), chunks.flatten = bytes →
      (frameChunks d.frames.maxFrameLength bytes).flatten = bytes ∧ delivered (d.pushAll text chunks).1 <+:
          delivered (d.pushAll text (frameChunks d.frames.maxFrameLength bytes)).1) ∧
    (∀ chunks : List Bytes, (d.pushAll text chunks).1.Pairwise fun result later =>
      (∃ message, result = .error message) → ∃ message, later = .error message) := by
  obtain ⟨hfail, hrds, hmax, -⟩ := createMessageDecoder_eq_ok hd
  refine ⟨fun messages wires hwir chunks hchu => ?_, fun bytes chunks hchu => ?_, pushAll_pairwise⟩
  · obtain ⟨payloads, hfra, hlens, hdeco⟩ := encodeMessages_eq_ok hcheck hd hwir
    obtain ⟨wires', hwir', hprs⟩ := parseFrames_encoded hmax hlens
    rw [hfra] at hwir'
    cases hwir'
    rw [← hchu] at hprs
    obtain ⟨returned, d', hpush, hret, hd', hrds'⟩ := pushAll_messages hfail hrds hprs hdeco
    exact ⟨returned, d', hpush, hret, end_of_reads hd' hrds'⟩
  · refine ⟨flatten_frameChunks _ _, ?_⟩
    rw [delivered_frameChunks hfail hrds, ← hchu]
    exact delivered_prefix text chunks hfail hrds

/-- A client's message with an `undefined` property, in two chunks. -/
theorem message_transport_ascii :
    let check : Value (List UInt8) → Bool
      | .object _ => true
      | _ => false
    ∃ d, createMessageDecoder .client check none = .ok d ∧
      ∃ (returned : List (List (Value (List UInt8)))) (d' : ValidatedMessageDecoder (List UInt8)),
        d.pushAll asciiText [[0, 0, 0], [4, 0xa1, 0x61, 98, 0xf6]] = (returned.map Except.ok, d') ∧
          returned.flatten = [.object [([98], .null)]] ∧ d'.end_.1 = .ok () := by
  intro check
  refine ⟨_, rfl, ?_⟩
  have hcheck : ∀ value, check value = true → check (stripUndefined value) = true := by
    intro value h
    cases value <;> first | rfl | cases h
  exact (message_transport asciiText .client check hcheck none _ rfl).1
    [⟨.object [([97], .undefined), ([98], .null)], by decide, by decide, trivial, trivial, trivial⟩]
    [[0, 0, 0, 4, 0xa1, 0x61, 98, 0xf6]] (by decide +kernel) _ rfl

end EasyPi.Protocol
