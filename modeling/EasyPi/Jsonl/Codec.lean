/-
# The lines of a JSONL session

`packages/agent/src/harness/session/jsonl/codec.ts`: one line is the header
or one mutation of the session. A mutation is encoded with its entry or
record spread beside the envelope (`kind`, and the lane of an entry), and
decoded by checking the object and taking the envelope off again. Payloads
are the JSON objects the code handles, with every property they have, not
only those a type of the source declares; a payload of type `JsonValue` is
one that passes `assertJsonSerializable`. An optional property that is
`undefined` is `none`.

The properties `kind` and `lane` of an entry, and `kind` of a record, belong
to the envelope: no entry or record type declares them, but nothing rejects
an object that has them, and such a payload does not come back
(`mutation_round_trip`).
-/
import EasyPi.Ai.JsonText
import EasyPi.Session.Durable

namespace EasyPi.Jsonl

open List Session.Durable

/-- `JsonlDecodeError["kind"]`. -/
inductive DecodeErrorKind where
  | syntaxError | schemaError
  deriving DecidableEq, Repr

structure JsonlDecodeError where
  kind : DecodeErrorKind
  message : String
  deriving DecidableEq, Repr

def schema {α : Type} (message : String) : Except JsonlDecodeError α := .error ⟨.schemaError, message⟩

/-- `SessionMutation`, with entries and records as the objects they are. -/
inductive Mutation where
  | entry (lane : Option String) (entry : Fields)
  | record (record : Fields)
  | lane (seq : ℕ) (lane : String) (leafId : Option String)
  | name (seq : ℕ) (name : Option String)
  | label (seq : ℕ) (targetId : String) (label : Option String)
  deriving DecidableEq

structure JsonlV4Header where
  id : String
  createdAt : ℕ
  cwd : String
  parentSessionId : Option String := none
  legacyParentSessionPath : Option String := none
  metadata : Option Fields := none
  deriving DecidableEq

/-! ### Reading properties -/

def validatePayload (check : Check) : Except JsonlDecodeError Unit :=
  match check with
  | .ok () => .ok ()
  | .error message => schema message

section Text

variable (J : JsonText)

def parseObject (line : String) : Except JsonlDecodeError Fields :=
  match J.parse line with
  | none => .error ⟨.syntaxError, "is not valid JSON"⟩
  | some (.obj value) => .ok value
  | some _ => schema "is not a JSON object"

def requireString (value : Option JsonValue) (field : String) : Except JsonlDecodeError String :=
  match value with
  | some (.str s) => .ok s
  | _ => schema ("has invalid " ++ field)

/-- A safe integer that is at least `minimum`. -/
def safeInteger? (minimum : ℕ) (value : Option JsonValue) : Option ℕ :=
  match value with
  | some (.num n) => if isSafeIntegerFrom minimum (.num n) then some n.num.toNat else none
  | _ => none

def requireSequence (value : Option JsonValue) : Except JsonlDecodeError ℕ :=
  match safeInteger? 1 value with
  | some seq => .ok seq
  | none => schema "has invalid seq"

def requireTimestamp (value : Option JsonValue) : Except JsonlDecodeError ℕ :=
  match safeInteger? 0 value with
  | some timestamp => .ok timestamp
  | none => schema "has invalid timestamp"

def requireNullableId (value : Option JsonValue) (field : String) : Except JsonlDecodeError (Option String) :=
  match value with
  | some .null => .ok none
  | some (.str id) => .ok (some id)
  | _ => schema ("has invalid " ++ field)

/-- An optional string: `undefined` passes. -/
def optionalString (value : Option JsonValue) (field : String) : Except JsonlDecodeError (Option String) :=
  match value with
  | none => .ok none
  | some (.str s) => .ok (some s)
  | some _ => schema ("has invalid " ++ field)

/-- A string or `null` as a value. -/
def nullable : Option String → JsonValue
  | none => .null
  | some s => .str s

def numeral (n : ℕ) : JsonValue := .num n

/-- The members `JSON.stringify` writes: those that are not `undefined`. -/
def defined (properties : List (String × Option JsonValue)) : Fields :=
  properties.filterMap fun p => p.2.map fun value => (p.1, value)

def decodeHeader (line : String) : Except JsonlDecodeError JsonlV4Header := do
  let value ← parseObject J line
  if value.lookup "kind" ≠ some (.str "header") then schema "is not a header"
  else if value.lookup "version" ≠ some (.num 4) then schema "has unsupported session version"
  else
    let parentSessionId ← optionalString (value.lookup "parentSessionId") "parentSessionId"
    let legacyParentSessionPath ←
      optionalString (value.lookup "legacyParentSessionPath") "legacyParentSessionPath"
    if parentSessionId ≠ none ∧ legacyParentSessionPath ≠ none then
      schema "has both parentSessionId and legacyParentSessionPath"
    else
      let metadata ← match value.lookup "metadata" with
        | none => .ok none
        | some (.obj metadata) => .ok (some metadata)
        | some _ => schema "has invalid metadata"
      let id ← requireString (value.lookup "id") "id"
      let createdAt ← requireTimestamp (value.lookup "createdAt")
      let cwd ← requireString (value.lookup "cwd") "cwd"
      return { id, createdAt, cwd, parentSessionId, legacyParentSessionPath, metadata }

def parseHeader (line : String) : Except JsonlDecodeError JsonlV4Header := decodeHeader J line

def JsonlV4Header.members (header : JsonlV4Header) : Fields :=
  defined [("kind", some (.str "header")), ("version", some (.num 4)), ("id", some (.str header.id)),
    ("createdAt", some (numeral header.createdAt)), ("cwd", some (.str header.cwd)),
    ("parentSessionId", header.parentSessionId.map .str),
    ("legacyParentSessionPath", header.legacyParentSessionPath.map .str), ("metadata", header.metadata.map .obj)]

def encodeHeader (header : JsonlV4Header) : String := J.stringify (.obj header.members) ++ "\n"

/-! ### Mutations -/

variable (value : Fields)

def parseEntryMutation (seq : ℕ) : Except JsonlDecodeError Mutation := do
  let lane ← optionalString (value.lookup "lane") "lane"
  let id ← requireString (value.lookup "id") "id"
  let type ← requireString (value.lookup "type") "entry type"
  validatePayload (assertDurableEntry (some (.obj value)))
  let parentId ← requireNullableId (value.lookup "parentId") "parentId"
  let timestamp ← requireTimestamp (value.lookup "timestamp")
  let entryFields := without value ["kind", "lane"]
  return .entry lane (assign entryFields
    [("id", .str id), ("type", .str type), ("parentId", nullable parentId), ("seq", numeral seq),
      ("timestamp", numeral timestamp)])

def parseRecordMutation (seq : ℕ) : Except JsonlDecodeError Mutation := do
  let id ← requireString (value.lookup "id") "id"
  let lane ← requireString (value.lookup "lane") "lane"
  let type ← requireString (value.lookup "type") "record type"
  validatePayload (assertDurableRecord (some (.obj value)))
  let timestamp ← requireTimestamp (value.lookup "timestamp")
  let recordFields := without value ["kind"]
  return .record (assign recordFields
    [("id", .str id), ("lane", .str lane), ("type", .str type), ("seq", numeral seq), ("timestamp", numeral timestamp)])

def parseLaneMutation (seq : ℕ) : Except JsonlDecodeError Mutation := do
  let lane ← requireString (value.lookup "lane") "lane"
  let leafId ← requireNullableId (value.lookup "leafId") "leafId"
  return .lane seq lane leafId

def parseFactMutation (seq : ℕ) : Except JsonlDecodeError Mutation := do
  if value.lookup "fact" = some (.str "name") then
    let name ← optionalString (value.lookup "name") "name"
    return .name seq name
  else if value.lookup "fact" = some (.str "label") then
    let label ← optionalString (value.lookup "label") "label"
    let targetId ← requireString (value.lookup "targetId") "targetId"
    return .label seq targetId label
  else schema "has unknown fact type"

/-- `decodeMutation`, on the members of the line. -/
def decodeMembers : Except JsonlDecodeError Mutation := do
  let seq ← requireSequence (value.lookup "seq")
  match value.lookup "kind" with
  | some (.str "entry") => parseEntryMutation value seq
  | some (.str "record") => parseRecordMutation value seq
  | some (.str "lane") => parseLaneMutation value seq
  | some (.str "fact") => parseFactMutation value seq
  | _ => schema "has unknown mutation kind"

def parseMutation (line : String) : Except JsonlDecodeError Mutation := do
  decodeMembers (← parseObject J line)

/-- The object `encodeMutation` writes. -/
def mutationMembers : Mutation → Fields
  | .entry lane entry => defined (assign
      [("kind", some (.str "entry")), ("lane", lane.map .str)]
      (entry.map fun p => (p.1, some p.2)))
  | .record record => assign [("kind", .str "record")] record
  | .lane seq lane leafId =>
    [("kind", .str "lane"), ("seq", numeral seq), ("lane", .str lane), ("leafId", nullable leafId)]
  | .name seq name => defined
      [("kind", some (.str "fact")), ("seq", some (numeral seq)), ("fact", some (.str "name")), ("name", name.map .str)]
  | .label seq targetId label => defined
      [("kind", some (.str "fact")), ("seq", some (numeral seq)), ("fact", some (.str "label")),
        ("targetId", some (.str targetId)), ("label", label.map .str)]

def mutationText (mutation : Mutation) : String := J.stringify (.obj (mutationMembers mutation))

def encodeMutation (mutation : Mutation) : String := mutationText J mutation ++ "\n"

end Text

/-- A mutation the storage writes: its payload is a JSON object that passes the checks, its
sequence number is positive and its timestamp is not negative, both safe integers. -/
def Mutation.Durable : Mutation → Prop
  | .entry _ fields => (JsonValue.obj fields).WellFormed ∧ assertDurableEntry (some (.obj fields)) = .ok () ∧
      (∃ parentId, fields.lookup "parentId" = some (nullable parentId)) ∧
      (∃ seq, 0 < seq ∧ seq < 2 ^ 53 ∧ fields.lookup "seq" = some (numeral seq)) ∧
      ∃ timestamp < 2 ^ 53, fields.lookup "timestamp" = some (numeral timestamp)
  | .record fields => (JsonValue.obj fields).WellFormed ∧ assertDurableRecord (some (.obj fields)) = .ok () ∧
      (∃ seq, 0 < seq ∧ seq < 2 ^ 53 ∧ fields.lookup "seq" = some (numeral seq)) ∧
      ∃ timestamp < 2 ^ 53, fields.lookup "timestamp" = some (numeral timestamp)
  | .lane seq .. | .name seq _ | .label seq .. => 0 < seq ∧ seq < 2 ^ 53

/-- The payload has no property of its envelope. -/
def Mutation.Unreserved : Mutation → Prop
  | .entry _ fields => "kind" ∉ fields.map Prod.fst ∧ "lane" ∉ fields.map Prod.fst
  | .record fields => "kind" ∉ fields.map Prod.fst
  | .lane .. | .name .. | .label .. => True

instance (mutation : Mutation) : Decidable mutation.Unreserved := by
  cases mutation <;> unfold Mutation.Unreserved <;> infer_instance

/-! ### What is encoded decodes -/

attribute [local simp] JsonValue.WellFormed JsonValue.WellFormedFields

theorem safeInteger?_numeral {minimum n : ℕ} (hmin : minimum ≤ n) (hn : n < 2 ^ 53) :
    safeInteger? minimum (some (numeral n)) = some n := by
  have hsafe : isSafeIntegerFrom minimum (.num n) = true := by
    simp only [isSafeIntegerFrom, Rat.den_natCast, Rat.num_natCast, Int.natAbs_natCast, decide_eq_true_eq, true_and]
    omega
  simp only [safeInteger?, numeral, hsafe, if_true, Rat.num_natCast, Int.toNat_natCast]

theorem requireSequence_numeral {n : ℕ} (hpos : 0 < n) (hn : n < 2 ^ 53) :
    requireSequence (some (numeral n)) = .ok n := by
  rw [requireSequence, safeInteger?_numeral hpos hn]

theorem requireTimestamp_numeral {n : ℕ} (hn : n < 2 ^ 53) : requireTimestamp (some (numeral n)) = .ok n := by
  rw [requireTimestamp, safeInteger?_numeral (Nat.zero_le n) hn]

theorem requireNullableId_nullable (id : Option String) (field : String) :
    requireNullableId (some (nullable id)) field = .ok id := by
  cases id <;> rfl

theorem optionalString_map (s : Option String) (field : String) : optionalString (s.map .str) field = .ok s := by
  cases s <;> rfl

theorem defined_append_some (base : List (String × Option JsonValue)) (members : Fields) :
    defined (base ++ members.map fun p => (p.1, some p.2)) = defined base ++ members := by
  simp [defined, filterMap_map]

theorem mutationMembers_entry {lane : Option String} {entry : Fields}
    (hnd : (entry.map Prod.fst).Nodup) (h : (Mutation.entry lane entry).Unreserved) :
    mutationMembers (.entry lane entry) = defined ([("kind", some (.str "entry")), ("lane", lane.map .str)] ++
        entry.map fun p => (p.1, some p.2)) := by
  have hkeys : (entry.map fun p => (p.1, some p.2)).map Prod.fst = entry.map Prod.fst := by
    rw [map_map]
    rfl
  rw [mutationMembers, assign_of_disjoint (by rw [hkeys]; exact hnd)]
  intro key hkey
  rw [hkeys] at hkey
  simp only [map_cons, map_nil, mem_cons, not_mem_nil, or_false, not_or]
  exact ⟨fun heq => h.1 (heq ▸ hkey), fun heq => h.2 (heq ▸ hkey)⟩

theorem mutationMembers_record {record : Fields} (hnd : (record.map Prod.fst).Nodup)
    (h : (Mutation.record record).Unreserved) : mutationMembers (.record record) = ("kind", .str "record") :: record := by
  rw [mutationMembers, assign_of_disjoint hnd, singleton_append]
  intro key hkey
  simp only [map_cons, map_nil, mem_singleton]
  exact fun heq => h (heq ▸ hkey)

theorem lookup_defined_entry (lane : Option String) (entry : Fields) (key : String)
    (h : (Mutation.entry lane entry).Unreserved) :
    (defined [("kind", some (.str "entry")), ("lane", lane.map .str)] ++ entry).lookup key =
      if key = "kind" then some (.str "entry") else if key = "lane" then lane.map .str else entry.lookup key := by
  have hlane : entry.lookup "lane" = none := OrdMap.lookup_eq_none_iff_notMem.mpr h.2
  cases lane with
  | none =>
    by_cases hkind : key = "kind"
    · simp [defined, hkind]
    · have hb : (key == "kind") = false := by simpa using hkind
      by_cases hkey : key = "lane"
      · simp [defined, List.lookup_cons, hkey, hlane]
      · simp [defined, List.lookup_cons, hb, hkind, hkey]
  | some lane =>
    by_cases hkind : key = "kind"
    · simp [defined, hkind]
    · have hb : (key == "kind") = false := by simpa using hkind
      by_cases hkey : key = "lane"
      · simp [defined, List.lookup_cons, hkey]
      · have hb' : (key == "lane") = false := by simpa using hkey
        simp [defined, List.lookup_cons, hb, hb', hkind, hkey]

theorem without_of_notMem {fields : Fields} {keys : List String}
    (h : ∀ key ∈ keys, key ∉ fields.map Prod.fst) : without fields keys = fields := by
  refine filter_eq_self.mpr fun p hp => ?_
  simp only [decide_eq_true_eq]
  exact fun hmem => h p.1 hmem (mem_map.mpr ⟨p, hp, rfl⟩)

theorem without_append_left (base : Fields) {fields : Fields} {keys : List String}
    (hbase : ∀ p ∈ base, p.1 ∈ keys) (h : ∀ key ∈ keys, key ∉ fields.map Prod.fst) :
    without (base ++ fields) keys = fields := by
  have hnil : without base keys = [] := by
    refine filter_eq_nil_iff.mpr fun p hp => ?_
    simpa using hbase p hp
  rw [without, filter_append, ← without, ← without, hnil, nil_append, without_of_notMem h]

theorem decodeMembers_entry {lane : Option String} {entry : Fields} (hdurable : (Mutation.entry lane entry).Durable)
    (hunr : (Mutation.entry lane entry).Unreserved) :
    decodeMembers (mutationMembers (.entry lane entry)) = .ok (.entry lane entry) := by
  obtain ⟨hwf, hval, ⟨parentId, hpar⟩, ⟨seq, hpos, hsafe, hseq⟩, timestamp, htime, htim⟩ := hdurable
  have hnd := (JsonValue.wellFormed_obj.mp hwf).1
  obtain ⟨⟨id, hid⟩, type, htype⟩ := entry_id_type hval
  have hlk := fun key => lookup_defined_entry lane entry key hunr
  rw [mutationMembers_entry hnd hunr, defined_append_some]
  generalize hvl : defined [("kind", some (.str "entry")), ("lane", lane.map .str)] ++ entry = value at hlk
  have hpay : ∀ key, key ≠ "kind" → key ≠ "lane" → value.lookup key = entry.lookup key :=
    fun key hkind hlane => by rw [hlk key, if_neg hkind, if_neg hlane]
  have hkind : value.lookup "kind" = some (.str "entry") := by rw [hlk, if_pos rfl]
  have hlane : value.lookup "lane" = lane.map .str := by
    rw [hlk, if_neg (by decide), if_pos rfl]
  have hchk : assertDurableEntry (some (.obj value)) = .ok () := by
    rw [← hval]
    refine assertDurableEntry_congr fun key hkey => hpay key ?_ ?_
    · exact ne_of_mem_of_not_mem hkey (by decide)
    · exact ne_of_mem_of_not_mem hkey (by decide)
  have hrest : without value ["kind", "lane"] = entry := by
    rw [← hvl]
    refine without_append_left _ ?_ ?_
    · cases lane <;> simp [defined]
    · rintro key hkey
      simp only [mem_cons, not_mem_nil, or_false] at hkey
      rcases hkey with rfl | rfl
      · exact hunr.1
      · exact hunr.2
  have hass : assign entry [("id", .str id), ("type", .str type), ("parentId", nullable parentId),
      ("seq", numeral seq), ("timestamp", numeral timestamp)] = entry := by
    refine assign_of_mem hnd ?_
    simp [hid, htype, hpar, hseq, htim]
  have hid' := (hpay "id" (by decide) (by decide)).trans hid
  have htype' := (hpay "type" (by decide) (by decide)).trans htype
  have hpar' := (hpay "parentId" (by decide) (by decide)).trans hpar
  have hseq' := (hpay "seq" (by decide) (by decide)).trans hseq
  have htim' := (hpay "timestamp" (by decide) (by decide)).trans htim
  simp only [decodeMembers, parseEntryMutation, hkind, hlane, hid', htype', hpar', hseq',
    htim', requireSequence_numeral hpos hsafe, requireTimestamp_numeral htime,
    requireNullableId_nullable, optionalString_map, requireString, hchk, validatePayload, hrest,
    hass, bind, Except.bind, pure, Except.pure]

theorem decodeMembers_record {record : Fields} (hdurable : (Mutation.record record).Durable)
    (hunr : (Mutation.record record).Unreserved) :
    decodeMembers (mutationMembers (.record record)) = .ok (.record record) := by
  obtain ⟨hwf, hval, ⟨seq, hpos, hsafe, hseq⟩, timestamp, htime, htim⟩ := hdurable
  have hnd := (JsonValue.wellFormed_obj.mp hwf).1
  obtain ⟨⟨id, hid⟩, ⟨lane, hlane⟩, type, htype⟩ := record_id_lane_type hval
  rw [mutationMembers_record hnd hunr]
  have hpay : ∀ key, key ≠ "kind" →
      (("kind", JsonValue.str "record") :: record).lookup key = record.lookup key := fun key hkey => by
    have hb : (key == "kind") = false := by simpa using hkey
    simp only [List.lookup_cons, hb]
  have hkind : (("kind", JsonValue.str "record") :: record).lookup "kind" = some (.str "record") := by simp
  have hchk : assertDurableRecord (some (.obj (("kind", .str "record") :: record))) = .ok () := by
    rw [← hval]
    exact assertDurableRecord_congr fun key hkey =>
      hpay key (ne_of_mem_of_not_mem hkey (by decide))
  have hrest : without (("kind", JsonValue.str "record") :: record) ["kind"] = record := by
    refine without_append_left [_] (by simp) fun key hkey => ?_
    rw [mem_singleton.mp hkey]
    exact hunr
  have hass : assign record [("id", .str id), ("lane", .str lane), ("type", .str type),
      ("seq", numeral seq), ("timestamp", numeral timestamp)] = record := by
    refine assign_of_mem hnd ?_
    simp [hid, hlane, htype, hseq, htim]
  have hid' := (hpay "id" (by decide)).trans hid
  have hlane' := (hpay "lane" (by decide)).trans hlane
  have htype' := (hpay "type" (by decide)).trans htype
  have hseq' := (hpay "seq" (by decide)).trans hseq
  have htim' := (hpay "timestamp" (by decide)).trans htim
  simp only [decodeMembers, parseRecordMutation, hkind, hid', hlane', htype', hseq', htim',
    requireSequence_numeral hpos hsafe, requireTimestamp_numeral htime, requireString, hchk,
    validatePayload, hrest, hass, bind, Except.bind, pure, Except.pure]

variable {mutation : Mutation}

theorem decodeMembers_mutationMembers (hdurable : mutation.Durable)
    (hunr : mutation.Unreserved) : decodeMembers (mutationMembers mutation) = .ok mutation := by
  cases mutation with
  | entry lane entry => exact decodeMembers_entry hdurable hunr
  | record record => exact decodeMembers_record hdurable hunr
  | lane seq lane leafId =>
    have hseq := requireSequence_numeral hdurable.1 hdurable.2
    have hleaf := requireNullableId_nullable leafId "leafId"
    simp [mutationMembers, decodeMembers, List.lookup_cons, parseLaneMutation, hseq, hleaf,
      requireString, bind, Except.bind, pure, Except.pure]
  | name seq name =>
    have hseq := requireSequence_numeral hdurable.1 hdurable.2
    cases name <;> simp [mutationMembers, defined, decodeMembers, List.lookup_cons, parseFactMutation, hseq,
      optionalString, bind, Except.bind, pure, Except.pure]
  | label seq targetId label =>
    have hseq := requireSequence_numeral hdurable.1 hdurable.2
    cases label <;> simp [mutationMembers, defined, decodeMembers, List.lookup_cons, parseFactMutation,
      hseq, optionalString, requireString, bind, Except.bind, pure, Except.pure]

theorem wellFormed_defined {properties : List (String × Option JsonValue)} (hnd : (properties.map Prod.fst).Nodup)
    (hvalu : ∀ p ∈ properties, ∀ value, p.2 = some value → value.WellFormed) :
    (JsonValue.obj (defined properties)).WellFormed := by
  rw [JsonValue.wellFormed_obj]
  constructor
  · have hsub : ((defined properties).map Prod.fst).Sublist (properties.map Prod.fst) := by
      clear hnd hvalu
      induction properties with
      | nil => simp [defined]
      | cons p properties ih =>
        obtain ⟨key, value⟩ := p
        cases value with
        | none => exact ih.cons _
        | some value => exact ih.cons_cons key
    exact hnd.sublist hsub
  · intro p hp
    simp only [defined, mem_filterMap, Option.map_eq_some_iff] at hp
    obtain ⟨q, hq, value, hvl, rfl⟩ := hp
    exact hvalu q hq value hvl

theorem wellFormed_mutationMembers (hdurable : mutation.Durable) (hunr : mutation.Unreserved) :
    (JsonValue.obj (mutationMembers mutation)).WellFormed := by
  cases mutation with
  | entry lane entry =>
    have hwf := JsonValue.wellFormed_obj.mp hdurable.1
    rw [mutationMembers_entry hwf.1 hunr]
    have hlane : ∀ value, lane.map JsonValue.str = some value → value.WellFormed := by
      cases lane <;> simp
    refine wellFormed_defined ?_ ?_
    · rw [map_append, map_map]
      change ("kind" :: "lane" :: entry.map Prod.fst).Nodup
      rw [nodup_cons, nodup_cons, mem_cons, not_or]
      exact ⟨⟨by decide, hunr.1⟩, hunr.2, hwf.1⟩
    · intro p hp value hvl
      simp only [cons_append, nil_append, mem_cons, mem_map] at hp
      rcases hp with rfl | rfl | ⟨q, hq, rfl⟩
      · cases hvl
        simp
      · exact hlane value hvl
      · cases hvl
        exact hwf.2 q hq
  | record record =>
    have hwf := JsonValue.wellFormed_obj.mp hdurable.1
    rw [mutationMembers_record hwf.1 hunr, JsonValue.wellFormed_obj]
    refine ⟨nodup_cons.mpr ⟨hunr, hwf.1⟩, ?_⟩
    exact forall_mem_cons.mpr ⟨by simp, hwf.2⟩
  | lane seq lane leafId =>
    cases leafId <;>
      simp [mutationMembers, nullable, numeral]
  | name seq name =>
    cases name <;> refine wellFormed_defined (by simp) ?_ <;>
      simp [numeral]
  | label seq targetId label =>
    cases label <;> refine wellFormed_defined (by simp) ?_ <;>
      simp [numeral]

theorem unreserved_of_decodeMembers {value : Fields} (h : decodeMembers value = .ok mutation) : mutation.Unreserved := by
  have hnot : ∀ {keys : List String} {members : Fields} {key : String}, key ∈ keys →
      key ∉ members.map Prod.fst → key ∉ (assign (without value keys) members).map Prod.fst := by
    intro keys members key hkey hmemb
    rw [← OrdMap.lookup_eq_none_iff_notMem, lookup_assign_of_notMem hmemb, lookup_without, if_pos hkey]
  obtain ⟨seq, -, h⟩ := bind_ok_iff.mp h
  split at h
  · obtain ⟨lane, -, h⟩ := bind_ok_iff.mp h
    obtain ⟨id, -, h⟩ := bind_ok_iff.mp h
    obtain ⟨type, -, h⟩ := bind_ok_iff.mp h
    obtain ⟨_, -, h⟩ := bind_ok_iff.mp h
    obtain ⟨parentId, -, h⟩ := bind_ok_iff.mp h
    obtain ⟨timestamp, -, h⟩ := bind_ok_iff.mp h
    obtain rfl := Except.ok.inj h
    exact ⟨hnot (by simp) (by simp), hnot (by simp) (by simp)⟩
  · obtain ⟨id, -, h⟩ := bind_ok_iff.mp h
    obtain ⟨lane, -, h⟩ := bind_ok_iff.mp h
    obtain ⟨type, -, h⟩ := bind_ok_iff.mp h
    obtain ⟨_, -, h⟩ := bind_ok_iff.mp h
    obtain ⟨timestamp, -, h⟩ := bind_ok_iff.mp h
    obtain rfl := Except.ok.inj h
    exact hnot (by simp) (by simp)
  · obtain ⟨lane, -, h⟩ := bind_ok_iff.mp h
    obtain ⟨leafId, -, h⟩ := bind_ok_iff.mp h
    obtain rfl := Except.ok.inj h
    trivial
  · simp only [parseFactMutation] at h
    split_ifs at h
    · obtain ⟨name, -, h⟩ := bind_ok_iff.mp h
      obtain rfl := Except.ok.inj h
      trivial
    · obtain ⟨label, -, h⟩ := bind_ok_iff.mp h
      obtain ⟨targetId, -, h⟩ := bind_ok_iff.mp h
      obtain rfl := Except.ok.inj h
      trivial
    · cases h
  · cases h

/-! ### The round trip -/

section RoundTrip

variable (J : JsonText)

theorem parseMutation_mutationText (hdurable : mutation.Durable) (hunr : mutation.Unreserved) :
    parseMutation J (mutationText J mutation) = .ok mutation := by
  have hprs := J.parse_stringify _ (wellFormed_mutationMembers hdurable hunr)
  rw [parseMutation, mutationText, parseObject, hprs]
  exact decodeMembers_mutationMembers hdurable hunr

theorem unreserved_of_parseMutation {line : String} (h : parseMutation J line = .ok mutation) : mutation.Unreserved := by
  obtain ⟨value, -, h⟩ := bind_ok_iff.mp h
  exact unreserved_of_decodeMembers h

/-- **A mutation comes back from its line**, exactly when its payload has no property of its
envelope. The line has one line break, at its end, and two such mutations with the same line are
the same. -/
theorem mutation_round_trip (mutation : Mutation) (hdurable : mutation.Durable) :
    (∃ line, encodeMutation J mutation = line ++ "\n" ∧ '\n' ∉ line.toList ∧
      (parseMutation J line = .ok mutation ↔ mutation.Unreserved)) ∧
    ∀ other : Mutation, other.Durable → mutation.Unreserved → other.Unreserved →
      encodeMutation J other = encodeMutation J mutation → other = mutation := by
  refine ⟨⟨mutationText J mutation, rfl, J.newline_notMem _, unreserved_of_parseMutation J,
    parseMutation_mutationText J hdurable⟩, ?_⟩
  intro other hothe hunr hoth heq
  have htext : mutationText J other = mutationText J mutation := by
    simpa [encodeMutation] using heq
  have hprs := parseMutation_mutationText J hothe hoth
  rw [htext, parseMutation_mutationText J hdurable hunr] at hprs
  exact (Except.ok.inj hprs).symm

/-- A custom entry on the lane `main`. -/
theorem mutation_round_trip_custom :
    let mutation : Mutation := .entry (some "main")
      [("type", .str "custom"), ("id", .str "e1"), ("customType", .str "note"),
        ("data", .obj [("kind", .str "x")]), ("parentId", .null), ("seq", numeral 1),
        ("timestamp", numeral 1700000000000)]
    mutation.Durable ∧ ∃ line, encodeMutation .printed mutation = line ++ "\n" ∧
      parseMutation .printed line = .ok mutation := by
  intro mutation
  have hdurable : mutation.Durable := by
    refine ⟨?_, by decide, ⟨none, rfl⟩, ⟨1, by decide, by decide, rfl⟩, 1700000000000, by decide, rfl⟩
    simp [numeral]
  obtain ⟨⟨line, hline, -, hprs⟩, -⟩ := mutation_round_trip .printed mutation hdurable
  exact ⟨hdurable, line, hline, hprs.mpr (by decide)⟩

/-- A custom entry with a property `kind`: it passes the checks, and its line does not parse to it. -/
theorem mutation_reserved_kind :
    let mutation : Mutation := .entry (some "main")
      [("type", .str "custom"), ("id", .str "e1"), ("customType", .str "note"),
        ("kind", .str "memo"), ("parentId", .null), ("seq", numeral 1), ("timestamp", numeral 1700000000000)]
    mutation.Durable ∧ ∃ line, encodeMutation .printed mutation = line ++ "\n" ∧
      parseMutation .printed line ≠ .ok mutation := by
  intro mutation
  refine ⟨⟨?_, by decide, ⟨none, rfl⟩, ⟨1, by decide, by decide, rfl⟩, 1700000000000, by decide, rfl⟩,
    mutationText .printed mutation, rfl, fun h => ?_⟩
  · simp [numeral]
  · exact absurd (unreserved_of_parseMutation .printed h) (by decide)

end RoundTrip

end EasyPi.Jsonl
