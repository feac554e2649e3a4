/-
# Recovery entries share their large fields

`RecoveryStorageIndex` of `packages/coding-agent/src/core/recovery-storage.ts`.
A recovery entry repeats large fields of earlier ones. When an entry is
written, `encode` replaces such a field by the id of the first entry that
stores the same value, found by its hash, and `register` admits the written
entry to the index, where it can be a source for later ones. A reader
registers what the file holds and `decode` puts the fields back.

The data of an entry on the way in is any value of the engine, of type `δ`;
`normalise` is `JSON.parse(JSON.stringify(value))`. `digest` is SHA-256 in
hexadecimal.

The invariant (`Written`) says what each written entry holds: its data as it
was, but for fields stored whole by an earlier entry of the file.
-/
import EasyPi.Ai.JsonText
import EasyPi.Lib.Except

namespace EasyPi.CodingAgent

open List
namespace RecoveryStorage

/-! ### Entries -/

/-- `fields`: what entries share. -/
inductive RecoveryField where
  | prompt | systemPrompt | suspendedTasks
  deriving DecidableEq, Repr

def fields : List RecoveryField := [.prompt, .systemPrompt, .suspendedTasks]

def RecoveryField.name : RecoveryField → String
  | .prompt => "prompt"
  | .systemPrompt => "systemPrompt"
  | .suspendedTasks => "suspendedTasks"

structure FieldReference where
  entryId : String
  sha256 : String
  deriving DecidableEq, Repr

def FieldReference.toJson (ref : FieldReference) : JsonValue :=
  .obj [("entryId", .str ref.entryId), ("sha256", .str ref.sha256)]

/-- `FieldReferences`, in the order the fields were set. -/
abbrev FieldReferences := List (RecoveryField × FieldReference)

/-- The `recoveryStorage` property of a stored entry. -/
def storageJson (refs : FieldReferences) : JsonValue :=
  .obj [("version", .num 1), ("refs", .obj (refs.map fun (field, ref) => (field.name, ref.toJson)))]

/-- `FileEntry`, with the properties the index reads. -/
structure FileEntry (δ : Type) where
  type : String
  customType : Option String := none
  id : String
  data : Option δ := none
  recoveryStorage : Option JsonValue := none
  deriving DecidableEq

def FileEntry.isRecoveryEntry {δ : Type} (entry : FileEntry δ) : Bool :=
  entry.type = "custom" && entry.customType = some "pi-task-recovery"

/-- What `encode` returns: an entry that is none of its business as it came,
a recovery entry in its JSON form. -/
inductive PhysicalEntry (δ : Type) where
  | other (entry : FileEntry δ) (h : entry.isRecoveryEntry = false)
  | recovery (stored : FileEntry JsonValue)

/-- The written entry as `register` sees it: it does not read the data of an
entry that is not a recovery entry. -/
def PhysicalEntry.seen {δ : Type} : PhysicalEntry δ → FileEntry JsonValue
  | .other entry _ => { entry with data := none }
  | .recovery stored => stored

/-! ### The index -/

structure IndexedRecord where
  order : ℕ
  inline : RecoveryField → Option String

structure RecoveryStorageIndex where
  records : OrdMap String IndexedRecord := ∅
  sources : RecoveryField → OrdMap String String := fun _ => ∅

abbrev IndexM := StateT RecoveryStorageIndex (Except String)

def isFieldValue (field : RecoveryField) (value : JsonValue) : Bool :=
  match field with
  | .systemPrompt => value.isString
  | .prompt | .suspendedTasks => value.isArray

/-- `/^[a-f0-9]{64}$/`. -/
def isSha256 (s : String) : Bool := s.length = 64 && s.toList.all fun c => ('a' ≤ c ∧ c ≤ 'f') ∨ ('0' ≤ c ∧ c ≤ '9')

def invalid {α : Type} (reason : String) : Except String α := .error ("Invalid task recovery storage: " ++ reason)

section Index

variable (J : JsonText) (digest : String → String) (index : RecoveryStorageIndex)

/-- The body of the loop of `encode`: the data left and the references so far. -/
def encodeField (acc : Fields × FieldReferences)
    (field : RecoveryField) : Fields × FieldReferences :=
  match acc.1.lookup field.name with
  | none => acc
  | some value =>
    if !isFieldValue field value then acc
    else
      let serialized := J.stringify value
      let bytes := serialized.utf8ByteSize
      if bytes < 512 then acc
      else
        let sha256 := digest serialized
        match (index.sources field).get? sha256 with
        | none => acc
        | some entryId =>
          let ref : FieldReference := ⟨entryId, sha256⟩
          if entryId = "" then acc
          else if bytes ≤ (J.stringify ref.toJson).utf8ByteSize + 128 then acc
          else (without acc.1 [field.name], acc.2 ++ [(field, ref)])

variable {δ : Type}

/-- The stored form of a recovery entry with the given data. -/
def encodeData (index : RecoveryStorageIndex) (entry : FileEntry δ)
    (data : Option JsonValue) : FileEntry JsonValue :=
  match data with
  | some (.obj members) =>
    let (kept, refs) := fields.foldl (encodeField J digest index) (members, [])
    { entry with
      data := some (.obj kept)
      recoveryStorage := if refs.isEmpty then none else some (storageJson refs) }
  | data => { entry with data := data, recoveryStorage := none }

/-- `JSON.parse(JSON.stringify(entry)).data`: a value `JSON.stringify` drops is `undefined`. -/
def normaliseData (normalise : δ → Except String (Option JsonValue))
    (data : Option δ) : Except String (Option JsonValue) :=
  match data with
  | none => .ok none
  | some data => normalise data

def encode (normalise : δ → Except String (Option JsonValue)) (entry : FileEntry δ) :
    IndexM (PhysicalEntry δ) := do
  if entry.recoveryStorage.isSome then
    invalid "expected logical entry, not physical metadata"
  else if h : entry.isRecoveryEntry = false then
    return .other entry h
  else
    let data ← normaliseData normalise entry.data
    return .recovery (encodeData J digest (← get) entry data)

/-- The check of one reference of an entry with the given data. -/
def checkReference (data : Fields) (order : ℕ)
    (named : String × JsonValue) : Except String (RecoveryField × FieldReference) :=
  let (name, value) := named
  match fields.find? (·.name = name), value, value.field? "entryId", value.field? "sha256" with
  | some field, .obj members, some (.str entryId), some (.str sha256) =>
    if entryId = "" || !isSha256 sha256 ||
        (members.any fun p => p.1 ≠ "entryId" && p.1 ≠ "sha256") || (data.lookup name).isSome then
      invalid ("malformed " ++ name ++ " reference")
    else
      match index.records.get? entryId with
      | some source =>
        if order ≤ source.order || source.inline field ≠ some sha256 then
          invalid ("missing, non-inline, future or mismatched " ++ name ++ " source " ++ entryId)
        else .ok (field, ⟨entryId, sha256⟩)
      | none =>
        invalid ("missing, non-inline, future or mismatched " ++ name ++ " source " ++ entryId)
  | _, _, _, _ => invalid ("malformed " ++ name ++ " reference")

variable (entry : FileEntry JsonValue)

def references (order : ℕ) : Except String FieldReferences :=
  match entry.recoveryStorage with
  | none => .ok []
  | some storage =>
    match storage, storage.field? "refs", entry.data with
    | .obj members, some (.obj refs), some (.obj data) =>
      if storage.field? "version" ≠ some (.num 1) ||
          (members.any fun p => p.1 ≠ "version" && p.1 ≠ "refs") || refs.isEmpty then
        invalid "unsupported encoding or malformed metadata"
      else refs.mapM (checkReference index data order)
    | _, _, _ => invalid "unsupported encoding or malformed metadata"

/-- The hashes of the fields an entry stores whole. -/
def inlineOf (field : RecoveryField) : Option String :=
  match entry.data with
  | some (.obj data) => (data.lookup field.name).bind fun value =>
    if isFieldValue field value then some (digest (J.stringify value)) else none
  | _ => none

/-- The index with a new record. The first entry with a value is its source. -/
def addRecord : RecoveryStorageIndex where
  records := index.records.set entry.id ⟨index.records.toList.length, inlineOf J digest entry⟩
  sources field :=
    match inlineOf J digest entry field with
    | some hash =>
      if hash = "" || (index.sources field).has hash then index.sources field
      else (index.sources field).set hash entry.id
    | none => index.sources field

def register : IndexM FieldReferences := do
  if !entry.isRecoveryEntry then
    if entry.recoveryStorage.isSome then invalid "metadata on a non-recovery entry"
    else return []
  else
    let index ← get
    if index.records.has entry.id then invalid ("duplicate entry " ++ entry.id)
    else
      let refs ← references index entry index.records.toList.length
      set (addRecord J digest index entry)
      return refs

/-- The source of a reference: an entry read before, or the file's. -/
def readSource (readEntry : String → Except String (FileEntry JsonValue))
    (sources : OrdMap String (FileEntry JsonValue)) (id : String) : Except String (FileEntry JsonValue) :=
  match sources.get? id with
  | some source => .ok source
  | none => readEntry id

/-- The body of the loop of `decode`: the data so far and the entries read. -/
def decodeField (refs : FieldReferences)
    (readEntry : String → Except String (FileEntry JsonValue))
    (acc : Fields × OrdMap String (FileEntry JsonValue)) (field : RecoveryField) :
    Except String (Fields × OrdMap String (FileEntry JsonValue)) := do
  match refs.lookup field with
  | none => return acc
  | some ref =>
    let source ← readSource readEntry acc.2 ref.entryId
    let sources := acc.2.set ref.entryId source
    match source.data, index.records.get? ref.entryId with
    | some (.obj data), some record =>
      if !source.isRecoveryEntry || source.id ≠ ref.entryId then
        invalid ("unreadable " ++ field.name ++ " source")
      else
        let _ ← references index source record.order
        match data.lookup field.name with
        | some value =>
          if !isFieldValue field value || digest (J.stringify value) ≠ ref.sha256 then
            invalid ("corrupt " ++ field.name ++ " source " ++ ref.entryId)
          else return (OrdMap.setList acc.1 field.name value, sources)
        | none => invalid ("corrupt " ++ field.name ++ " source " ++ ref.entryId)
    | _, _ => invalid ("unreadable " ++ field.name ++ " source")

def decode (readEntry : String → Except String (FileEntry JsonValue)) :
    Except String (Option JsonValue) := do
  match index.records.get? entry.id with
  | none => invalid ("unregistered entry " ++ entry.id)
  | some record =>
    let refs ← references index entry record.order
    match refs, entry.data with
    | [], data => return data
    | _ :: _, some (.obj data) =>
      let (data, _) ← fields.foldlM (decodeField J digest index refs readEntry) (data, ∅)
      return some (.obj data)
    -- an entry with references has an object as its data: `references` checked it
    | _ :: _, data => return data

/-- The loop of `writeSessionFile`: each entry is encoded and its stored form registered. -/
def writeAll (normalise : δ → Except String (Option JsonValue))
    (entries : List (FileEntry δ)) : IndexM (List (PhysicalEntry δ)) :=
  entries.mapM fun entry => do
    let stored ← encode J digest normalise entry
    let _ ← register J digest stored.seen
    return stored

def registerAll (physical : List (PhysicalEntry δ)) : IndexM Unit :=
  physical.forM fun entry => do
    let _ ← register J digest entry.seen
    return ()

def readEntry (physical : List (PhysicalEntry δ)) (id : String) : Except String (FileEntry JsonValue) :=
  match physical.find? fun entry => entry.seen.id = id with
  | some entry => .ok entry.seen
  | none => .error ("Missing task recovery backing record: " ++ id)

end Index

/-! ### Encoding -/

section Encoding

variable {J : JsonText} {digest : String → String} {δ : Type}
  {norm : δ → Except String (Option JsonValue)} {index : RecoveryStorageIndex}

theorem name_injective {a b : RecoveryField} (h : a.name = b.name) : a = b := by
  cases a <;> cases b <;> first | rfl | exact absurd h (by decide)

theorem mem_fields (field : RecoveryField) : field ∈ fields := by
  cases field <;> decide

/-- `field` may be replaced by `ref`: the index has a source for the value. -/
def Shares (J : JsonText) (digest : String → String) (index : RecoveryStorageIndex)
    (members : Fields) (field : RecoveryField) (ref : FieldReference) : Prop :=
  ref.entryId ≠ "" ∧ (index.sources field).get? ref.sha256 = some ref.entryId ∧
    ∃ value, members.lookup field.name = some value ∧ isFieldValue field value = true ∧
      ref.sha256 = digest (J.stringify value)

/-- A field is left as it is, or replaced by a reference to its source. -/
theorem encodeField_cases (J : JsonText) (digest : String → String) (index : RecoveryStorageIndex)
    (acc : Fields × FieldReferences) (field : RecoveryField) :
    encodeField J digest index acc field = acc ∨ ∃ ref, Shares J digest index acc.1 field ref ∧
        encodeField J digest index acc field = (without acc.1 [field.name], acc.2 ++ [(field, ref)]) := by
  unfold encodeField
  cases hvl : acc.1.lookup field.name with
  | none => exact Or.inl rfl
  | some value =>
    simp only
    cases hfie : isFieldValue field value with
    | false => exact Or.inl rfl
    | true =>
      simp only [Bool.not_true, Bool.false_eq_true, if_false]
      split_ifs with hbyt
      · exact Or.inl rfl
      · cases hsrc : (index.sources field).get? (digest (J.stringify value)) with
        | none => exact Or.inl rfl
        | some entryId =>
          simp only
          split_ifs with hid hsize
          · exact Or.inl rfl
          · exact Or.inl rfl
          · exact Or.inr ⟨_, ⟨hid, hsrc, value, hvl, hfie, rfl⟩, rfl⟩

theorem without_append (members : Fields) (keys : List String) (key : String) :
    without (without members keys) [key] = without members (keys ++ [key]) := by
  simp only [without, filter_filter]
  refine filter_congr fun p _ => ?_
  by_cases h : p.1 = key <;> simp [h]

theorem foldl_encodeField (J : JsonText) (digest : String → String) (index : RecoveryStorageIndex)
    (members : Fields) (todo : List RecoveryField) (acc : Fields × FieldReferences)
    (hkept : acc.1 = without members (acc.2.map (·.1.name))) (hnd : (acc.2.map Prod.fst ++ todo).Nodup)
    (hshar : ∀ p ∈ acc.2, Shares J digest index members p.1 p.2) :
    let result := todo.foldl (encodeField J digest index) acc
    result.1 = without members (result.2.map (·.1.name)) ∧ (result.2.map Prod.fst).Nodup ∧
      ∀ p ∈ result.2, Shares J digest index members p.1 p.2 := by
  induction todo generalizing acc with
  | nil => exact ⟨hkept, by simpa using hnd, hshar⟩
  | cons field todo ih =>
    rw [foldl_cons]
    rcases encodeField_cases J digest index acc field with heq | ⟨ref, href, heq⟩
    · rw [heq]
      exact ih acc hkept (hnd.sublist (by simp)) hshar
    · rw [heq]
      have hfie : field ∉ acc.2.map Prod.fst := fun hmem =>
        (nodup_append.mp hnd).2.2 field hmem field (by simp) rfl
      have hname : field.name ∉ acc.2.map (·.1.name) := fun hmem => by
        obtain ⟨p, hp, heq⟩ := mem_map.mp hmem
        exact hfie (mem_map.mpr ⟨p, hp, name_injective heq⟩)
      refine ih _ ?_ (by simpa using hnd) ?_
      · simp only [hkept, without_append, map_append, map_cons, map_nil]
      · intro p hp
        rcases mem_append.mp hp with hp | hp
        · exact hshar p hp
        · rw [mem_singleton] at hp
          subst hp
          obtain ⟨hid, hsrc, value, hvl, hrest⟩ := href
          rw [hkept, lookup_without, if_neg hname] at hvl
          exact ⟨hid, hsrc, value, hvl, hrest⟩

/-! ### References -/

theorem find?_name (field : RecoveryField) : fields.find? (fun f => f.name = field.name) = some field := by
  cases field <;> decide

variable {field : RecoveryField} {order : ℕ} {ref : FieldReference} {refs : FieldReferences}
  {index' : RecoveryStorageIndex} {entry : FileEntry δ} {written : PhysicalEntry δ} {data : Option JsonValue}
  {stored : FileEntry JsonValue} {value : JsonValue}

/-- A reference of a written entry passes the check when its source is registered. -/
theorem checkReference_toJson {data : Fields} {record : IndexedRecord} (hid : ref.entryId ≠ "")
    (hsha : isSha256 ref.sha256 = true) (hdata : data.lookup field.name = none)
    (hrec : index.records.get? ref.entryId = some record) (hord : record.order < order)
    (hinl : record.inline field = some ref.sha256) :
    checkReference index data order (field.name, ref.toJson) = .ok (field, ref) := by
  have hord' : ¬order ≤ record.order := by omega
  simp [checkReference, find?_name, FieldReference.toJson, List.lookup_cons, hid, hsha, hdata, hrec, hord', hinl]

theorem mapM_checkReference {data : Fields}
    (h : ∀ p ∈ refs, checkReference index data order (p.1.name, p.2.toJson) = .ok p) :
    (refs.map fun (field, ref) => (field.name, ref.toJson)).mapM (checkReference index data order) = .ok refs := by
  rw [mapM_eq_ok, forall₂_map_left_iff, forall₂_same]
  exact h

theorem references_storageJson {entry : FileEntry JsonValue} {data : Fields} (hdata : entry.data = some (.obj data))
    (hstg : entry.recoveryStorage = some (storageJson refs)) (hrefs : refs ≠ [])
    (h : ∀ p ∈ refs, checkReference index data order (p.1.name, p.2.toJson) = .ok p) :
    references index entry order = .ok refs := by
  have hmap := mapM_checkReference h
  simp only [references, hstg, hdata, storageJson]
  simp [List.lookup_cons, hrefs]
  simpa using hmap

theorem eq_of_checkReference {data : Fields} {result : RecoveryField × FieldReference}
    (h : checkReference index data order (field.name, ref.toJson) = .ok result) : result = (field, ref) := by
  simp only [checkReference, find?_name, FieldReference.toJson, JsonValue.field?_obj, List.lookup_cons,
    beq_self_eq_true, String.reduceBEq] at h
  split_ifs at h
  · cases h
  · split at h
    · split_ifs at h
      · cases h
      · exact (Except.ok.inj h).symm
    · cases h

theorem eq_of_references {entry : FileEntry JsonValue} {refs refs' : FieldReferences}
    (hstg : entry.recoveryStorage = some (storageJson refs))
    (h : references index entry order = .ok refs') : refs' = refs := by
  simp only [references, hstg] at h
  split at h
  · rename_i members named data hmemb hnam hdata
    obtain rfl : named = refs.map fun (field, ref) => (field.name, ref.toJson) := by
      rw [storageJson] at hnam
      exact (JsonValue.obj.inj (Option.some.inj hnam)).symm
    split_ifs at h
    · cases h
    · rw [mapM_eq_ok, forall₂_map_left_iff] at h
      have heq := h.imp fun p p' hp => (eq_of_checkReference hp).symm
      exact (forall₂_eq_eq_eq ▸ heq).symm
  · cases h

/-- What the index admits once it admits later: records only come in. -/
def RecoveryStorageIndex.Le (index index' : RecoveryStorageIndex) : Prop :=
  ∀ id record, index.records.get? id = some record → index'.records.get? id = some record

theorem checkReference_mono (hle : index.Le index') {data : Fields}
    {named : String × JsonValue} {result : RecoveryField × FieldReference}
    (h : checkReference index data order named = .ok result) : checkReference index' data order named = .ok result := by
  obtain ⟨name, value⟩ := named
  simp only [checkReference] at h ⊢
  split at h
  · rename_i field members entryId sha256 hfie hent hsha
    split_ifs at h ⊢
    · cases h
    · cases hrec : index.records.get? entryId with
      | none =>
        rw [hrec] at h
        cases h
      | some record =>
        rw [hrec] at h
        rw [hle entryId record hrec]
        exact h
  · cases h

theorem references_mono (hle : index.Le index') {entry : FileEntry JsonValue}
    (h : references index entry order = .ok refs) : references index' entry order = .ok refs := by
  simp only [references] at h ⊢
  split at h
  · exact h
  · split at h
    · split_ifs at h ⊢
      · cases h
      · rw [mapM_eq_ok] at h ⊢
        exact h.imp fun _ _ hp => checkReference_mono hle hp
    · cases h

/-! ### What a written file holds -/

/-- How `stored` holds the data of a recovery entry, when `before` was written before it: whole,
or without some fields that entries of `before` store whole. -/
inductive StoredData (J : JsonText) (digest : String → String) (before : List (PhysicalEntry δ))
    (stored : FileEntry JsonValue) : Option JsonValue → Prop
  | whole (hstg : stored.recoveryStorage = none) : StoredData J digest before stored stored.data
  | shared {members : Fields} {refs : FieldReferences}
      (hdata : stored.data = some (.obj (without members (refs.map (·.1.name)))))
      (hstg : stored.recoveryStorage = some (storageJson refs)) (hrefs : refs ≠ [])
      (hnd : (refs.map Prod.fst).Nodup)
      (hsrc : ∀ p ∈ refs, p.2.entryId ≠ "" ∧
        (∃ value, members.lookup p.1.name = some value ∧ isFieldValue p.1 value = true ∧
          p.2.sha256 = digest (J.stringify value)) ∧
        ∃ source, PhysicalEntry.recovery source ∈ before ∧ source.id = p.2.entryId ∧
          inlineOf J digest source p.1 = some p.2.sha256) :
      StoredData J digest before stored (some (.obj members))

/-- How `physical` holds `entry`. -/
def StoredAs (J : JsonText) (digest : String → String)
    (normalise : δ → Except String (Option JsonValue)) (before : List (PhysicalEntry δ))
    (entry : FileEntry δ) : PhysicalEntry δ → Prop
  | .other written _ => written = entry
  | .recovery stored => entry.isRecoveryEntry = true ∧ stored.isRecoveryEntry = true ∧ stored.id = entry.id ∧
      ∃ data, normaliseData normalise entry.data = .ok data ∧ StoredData J digest before stored data

/-- The index after `entries` were written as `physical`. -/
structure Written (J : JsonText) (digest : String → String)
    (normalise : δ → Except String (Option JsonValue)) (entries : List (FileEntry δ))
    (physical : List (PhysicalEntry δ)) (index : RecoveryStorageIndex) : Prop where
  length_eq : physical.length = entries.length
  /-- Each entry is stored, with sources among the ones before it. -/
  stored : ∀ i entry written, entries[i]? = some entry → physical[i]? = some written →
    StoredAs J digest normalise (physical.take i) entry written
  /-- Each stored entry has a record, and its references pass. -/
  registered : ∀ stored, PhysicalEntry.recovery stored ∈ physical →
    ∃ record refs, index.records.get? stored.id = some record ∧
      record.order < index.records.toList.length ∧ record.inline = inlineOf J digest stored ∧
      references index stored record.order = .ok refs
  /-- A record is of a stored entry. -/
  records : ∀ id, index.records.has id = true → ∃ stored, PhysicalEntry.recovery stored ∈ physical ∧ stored.id = id
  /-- A source stores the value whole. -/
  sources : ∀ field hash id, (index.sources field).get? hash = some id →
    ∃ stored, PhysicalEntry.recovery stored ∈ physical ∧ stored.id = id ∧ inlineOf J digest stored field = some hash

theorem written_nil : Written J digest norm [] [] {} where
  length_eq := rfl
  stored := by simp
  registered := by simp
  records id h := by simp [OrdMap.has] at h
  sources field hash id h := by simp at h

theorem StoredAs.id_eq {before : List (PhysicalEntry δ)} (h : StoredAs J digest norm before entry written) :
    written.seen.id = entry.id := by
  cases written with
  | other written hoth =>
    obtain rfl : written = entry := h
    rfl
  | recovery stored => exact h.2.2.1

section Written

variable {entries : List (FileEntry δ)} {disk : List (PhysicalEntry δ)}

variable (h : Written J digest norm entries disk index)

include h in
theorem Written.ids : disk.map (·.seen.id) = entries.map (·.id) := by
  refine ext_getElem? fun i => ?_
  rw [List.getElem?_map, List.getElem?_map]
  cases hp : disk[i]? with
  | none =>
    have := List.getElem?_eq_none_iff.mp hp
    rw [List.getElem?_eq_none_iff.mpr (by rw [← h.length_eq]; exact this)]
    rfl
  | some written =>
    have hi : i < entries.length := by
      rw [← h.length_eq]
      exact (List.getElem?_eq_some_iff.mp hp).1
    have he : entries[i]? = some entries[i] := List.getElem?_eq_getElem hi
    rw [he, Option.map_some, Option.map_some, (h.stored i _ written he hp).id_eq]

include h in
theorem Written.fresh {id : String} (hid : id ∉ entries.map (·.id)) : index.records.get? id = none := by
  cases hrec : index.records.get? id with
  | none => rfl
  | some record =>
    obtain ⟨stored, hmem, rfl⟩ := h.records id (by simp [OrdMap.has, hrec])
    rw [← h.ids] at hid
    exact absurd (mem_map.mpr ⟨_, hmem, rfl⟩) hid

theorem encodeData_obj (entry : FileEntry δ) (members : Fields) :
    encodeData J digest index entry (some (.obj members)) =
      let result := fields.foldl (encodeField J digest index) (members, [])
      { entry with
        data := some (.obj result.1)
        recoveryStorage := if result.2.isEmpty then none else some (storageJson result.2) } := rfl

theorem encodeData_of_not_isObject (entry : FileEntry δ) (h : data.any JsonValue.isObject = false) :
    encodeData J digest index entry data = { entry with data := data, recoveryStorage := none } := by
  match data with
  | none | some .null | some (.bool _) | some (.num _) | some (.str _) | some (.arr _) => rfl
  | some (.obj _) => cases h

theorem encodeData_id (entry : FileEntry δ) (data : Option JsonValue) :
    (encodeData J digest index entry data).id = entry.id := by
  unfold encodeData
  split <;> rfl

theorem encodeData_isRecoveryEntry (entry : FileEntry δ) (data : Option JsonValue) :
    (encodeData J digest index entry data).isRecoveryEntry = entry.isRecoveryEntry := by
  unfold encodeData
  split <;> rfl

include h in
theorem storedData_encodeData (entry : FileEntry δ) (data : Option JsonValue) :
    StoredData J digest disk (encodeData J digest index entry data) data := by
  cases hobje : data.any JsonValue.isObject with
  | false =>
    rw [encodeData_of_not_isObject entry hobje]
    exact StoredData.whole rfl
  | true =>
    obtain ⟨members, rfl⟩ : ∃ members, data = some (.obj members) := by
      cases data with
      | none => cases hobje
      | some value =>
        obtain ⟨members, rfl⟩ := JsonValue.isObject_iff.mp hobje
        exact ⟨members, rfl⟩
    have hfold := foldl_encodeField J digest index members fields (members, [])
      (by simp [without]) (by simp [fields]) (by simp)
    rw [encodeData_obj]
    generalize fields.foldl (encodeField J digest index) (members, []) = result at hfold
    obtain ⟨kept, refs⟩ := result
    obtain ⟨hkept, hnd, hshar⟩ := hfold
    simp only at hkept hnd hshar ⊢
    by_cases hrefs : refs = []
    · subst hrefs
      have hmemb : kept = members := by simpa [without] using hkept
      rw [hmemb]
      exact StoredData.whole rfl
    · refine StoredData.shared (by rw [hkept]) (by simp [hrefs]) hrefs hnd ?_
      intro p hp
      obtain ⟨hid, hsrc, hvl⟩ := hshar p hp
      exact ⟨hid, hvl, h.sources p.1 p.2.sha256 p.2.entryId hsrc⟩

variable (hdigest : ∀ s, isSha256 (digest s) = true)

include hdigest in
theorem references_of_storedData (h : Written J digest norm entries disk index)
    (hsto : StoredData J digest disk stored data) :
    ∃ refs, references index stored index.records.toList.length = .ok refs := by
  cases hsto with
  | whole hstg => exact ⟨[], by rw [references, hstg]⟩
  | shared hdata hstg hrefs hnd hsrc =>
    refine ⟨_, references_storageJson hdata hstg hrefs fun p hp => ?_⟩
    obtain ⟨hid, ⟨value, -, -, hsha⟩, source, hmem, hsourceId, hinl⟩ := hsrc p hp
    obtain ⟨record, -, hrec, hord, hrecordInline, -⟩ := h.registered source hmem
    refine checkReference_toJson hid (by rw [hsha]; exact hdigest _) ?_ (hsourceId ▸ hrec) hord
      (by rw [hrecordInline, hinl])
    rw [lookup_without, if_pos (mem_map.mpr ⟨p, hp, rfl⟩)]

include h in
theorem Written.stored_append (hnew : StoredAs J digest norm disk entry written) :
    ∀ i e p, (entries ++ [entry])[i]? = some e → (disk ++ [written])[i]? = some p →
      StoredAs J digest norm ((disk ++ [written]).take i) e p := by
  intro i e p he hp
  rcases Nat.lt_trichotomy i disk.length with hi | hi | hi
  · rw [List.getElem?_append_left (by rw [← h.length_eq]; exact hi)] at he
    rw [List.getElem?_append_left hi] at hp
    rw [take_append_of_le_length (le_of_lt hi)]
    exact h.stored i e p he hp
  · subst hi
    rw [List.getElem?_concat_length] at hp
    rw [h.length_eq, List.getElem?_concat_length] at he
    obtain rfl := Option.some.inj he
    obtain rfl := Option.some.inj hp
    rwa [take_left]
  · rw [List.getElem?_eq_none_iff.mpr (by simp; omega)] at hp
    cases hp

include h in
theorem Written.other (hent : entry.isRecoveryEntry = false) :
    Written J digest norm (entries ++ [entry]) (disk ++ [.other entry hent]) index where
  length_eq := by simp [h.length_eq]
  stored := h.stored_append rfl
  registered stored hmem := by
    rw [mem_append, mem_singleton] at hmem
    exact h.registered stored (hmem.resolve_right (by simp))
  records id hid := by
    obtain ⟨stored, hmem, hsto⟩ := h.records id hid
    exact ⟨stored, mem_append_left _ hmem, hsto⟩
  sources field hash id hsrc := by
    obtain ⟨stored, hmem, hsto⟩ := h.sources field hash id hsrc
    exact ⟨stored, mem_append_left _ hmem, hsto⟩

theorem addRecord_le (hfr : index.records.get? stored.id = none) : index.Le (addRecord J digest index stored) := by
  intro id record hrec
  have hne : id ≠ stored.id := by
    rintro rfl
    rw [hfr] at hrec
    cases hrec
  simp [addRecord, hne, hrec]

theorem get?_addRecord_sources
    {hash id : String} (h : ((addRecord J digest index stored).sources field).get? hash = some id) :
    (index.sources field).get? hash = some id ∨ (id = stored.id ∧ inlineOf J digest stored field = some hash) := by
  simp only [addRecord] at h
  cases hinl : inlineOf J digest stored field with
  | none =>
    rw [hinl] at h
    exact Or.inl h
  | some found =>
    rw [hinl] at h
    simp only at h
    split_ifs at h
    · exact Or.inl h
    · rw [OrdMap.get?_set] at h
      split_ifs at h with heq
      · exact Or.inr ⟨(Option.some.inj h).symm, by rw [heq]⟩
      · exact Or.inl h

include hdigest in
theorem Written.recovery (h : Written J digest norm entries disk index)
    (hsto : StoredAs J digest norm disk entry (.recovery stored)) (hfr : index.records.get? stored.id = none) :
    Written J digest norm (entries ++ [entry]) (disk ++ [.recovery stored])
      (addRecord J digest index stored) := by
  have hle : index.Le (addRecord J digest index stored) := addRecord_le hfr
  have hlen : (addRecord J digest index stored).records.toList.length = index.records.toList.length + 1 := by
    simp [addRecord, OrdMap.toList_set_of_get?_none hfr]
  refine ⟨by simp [h.length_eq], h.stored_append hsto, ?_, ?_, ?_⟩
  · intro other hmem
    rw [mem_append, mem_singleton] at hmem
    rcases hmem with hmem | heq
    · obtain ⟨record, refs, hrec, hord, hinl, hrefs⟩ := h.registered other hmem
      exact ⟨record, refs, hle _ _ hrec, by omega, hinl, references_mono hle hrefs⟩
    · obtain rfl := PhysicalEntry.recovery.inj heq
      obtain ⟨-, -, -, data, -, hdata⟩ := hsto
      obtain ⟨refs, hrefs⟩ := references_of_storedData hdigest h hdata
      refine ⟨⟨index.records.toList.length, inlineOf J digest other⟩, refs, ?_, ?_, rfl, references_mono hle hrefs⟩
      · simp [addRecord]
      · rw [hlen]
        exact Nat.lt_succ_self _
  · intro id hid
    simp only [addRecord, OrdMap.has_set, Bool.or_eq_true, decide_eq_true_eq] at hid
    rcases hid with rfl | hid
    · exact ⟨stored, by simp, rfl⟩
    · obtain ⟨other, hmem, hoth⟩ := h.records id hid
      exact ⟨other, mem_append_left _ hmem, hoth⟩
  · intro field hash id hsrc
    rcases get?_addRecord_sources hsrc with hold | ⟨rfl, hinl⟩
    · obtain ⟨other, hmem, hoth⟩ := h.sources field hash id hold
      exact ⟨other, mem_append_left _ hmem, hoth⟩
    · exact ⟨stored, by simp, rfl, hinl⟩

/-! ### A run of the writer -/

theorem run_encode_index
    (h : (encode J digest norm entry).run index = .ok (written, index')) : index' = index := by
  unfold encode at h
  split_ifs at h
  · cases h
  · cases h
    rfl
  · cases hdata : normaliseData norm entry.data with
    | error e =>
      rw [hdata] at h
      cases h
    | ok data =>
      rw [hdata] at h
      cases h
      rfl

theorem run_encode_other (hmetadata : entry.recoveryStorage = none) (hent : entry.isRecoveryEntry = false) :
    (encode J digest norm entry).run index = .ok (.other entry hent, index) := by
  unfold encode
  rw [if_neg (by simp [hmetadata]), dif_pos hent]
  rfl

theorem run_encode_recovery (hmetadata : entry.recoveryStorage = none) (hent : entry.isRecoveryEntry = true)
    (hdata : normaliseData norm entry.data = .ok data) :
    (encode J digest norm entry).run index = .ok (.recovery (encodeData J digest index entry data), index) := by
  unfold encode
  rw [if_neg (by simp [hmetadata]), dif_neg (by simp [hent]), hdata]
  rfl

theorem run_register_other {entry : FileEntry JsonValue} (hmetadata : entry.recoveryStorage = none)
    (hent : entry.isRecoveryEntry = false) : (register J digest entry).run index = .ok ([], index) := by
  unfold register
  rw [if_pos (by simp [hent]), if_neg (by simp [hmetadata])]
  rfl

theorem run_register_recovery {entry : FileEntry JsonValue}
    (hent : entry.isRecoveryEntry = true) (hfr : index.records.get? entry.id = none)
    (hrefs : references index entry index.records.toList.length = .ok refs) :
    (register J digest entry).run index = .ok (refs, addRecord J digest index entry) := by
  have hhas : index.records.has entry.id = false := by simp [OrdMap.has, hfr]
  unfold register
  rw [if_neg (by simp [hent])]
  change (if index.records.has entry.id then _ else _ : IndexM FieldReferences).run index = _
  rw [hhas, hrefs]
  rfl

include hdigest in
theorem written_step (h : Written J digest norm entries disk index) (hmetadata : entry.recoveryStorage = none)
    (hdata : entry.isRecoveryEntry = true → ∃ data, normaliseData norm entry.data = .ok data)
    (hid : entry.id ∉ entries.map (·.id)) :
    ∃ written refs index', (encode J digest norm entry).run index = .ok (written, index) ∧
      (register J digest written.seen).run index = .ok (refs, index') ∧
      Written J digest norm (entries ++ [entry]) (disk ++ [written]) index' := by
  cases hent : entry.isRecoveryEntry with
  | false =>
    exact ⟨.other entry hent, [], index, run_encode_other hmetadata hent, run_register_other hmetadata hent, h.other hent⟩
  | true =>
    obtain ⟨data, hdata⟩ := hdata hent
    have hsto : StoredAs J digest norm disk entry
        (.recovery (encodeData J digest index entry data)) :=
      ⟨hent, by rw [encodeData_isRecoveryEntry, hent], encodeData_id entry data, data, hdata,
        storedData_encodeData h entry data⟩
    have hfr : index.records.get? (encodeData J digest index entry data).id = none := by
      rw [encodeData_id]
      exact h.fresh hid
    obtain ⟨refs, hrefs⟩ := references_of_storedData hdigest h (storedData_encodeData h entry data)
    exact ⟨.recovery _, refs, _, run_encode_recovery hmetadata hent hdata,
      run_register_recovery hsto.2.1 hfr hrefs, h.recovery hdigest hsto hfr⟩

theorem run_writeAll_cons {todo : List (FileEntry δ)} {rest : List (PhysicalEntry δ)}
    {index₁ index₂ index₃ : RecoveryStorageIndex}
    (henc : (encode J digest norm entry).run index = .ok (written, index₁))
    (hreg : (register J digest written.seen).run index₁ = .ok (refs, index₂))
    (hrest : (writeAll J digest norm todo).run index₂ = .ok (rest, index₃)) :
    (writeAll J digest norm (entry :: todo)).run index = .ok (written :: rest, index₃) := by
  have hent : (do
      let stored ← encode J digest norm entry
      let _ ← register J digest stored.seen
      return stored : IndexM (PhysicalEntry δ)).run index = .ok (written, index₂) := by
    rw [run_bind_ok henc, run_bind_ok hreg]
    rfl
  rw [writeAll] at hrest ⊢
  rw [mapM_cons, run_bind_ok hent, run_bind_ok hrest]
  rfl

theorem run_registerAll_cons {rest : List (PhysicalEntry δ)} {index₁ index₂ : RecoveryStorageIndex}
    (hreg : (register J digest written.seen).run index = .ok (refs, index₁))
    (hrest : (registerAll J digest rest).run index₁ = .ok ((), index₂)) :
    (registerAll J digest (written :: rest)).run index = .ok ((), index₂) := by
  have hent : (do
      let _ ← register J digest written.seen
      return () : IndexM Unit).run index = .ok ((), index₁) := by
    rw [run_bind_ok hreg]
    rfl
  change (_ >>= fun _ => registerAll J digest rest : IndexM Unit).run index = _
  rw [run_bind_ok hent, hrest]

include hdigest in
theorem written_writeAll (todo : List (FileEntry δ)) (h : Written J digest norm entries disk index)
    (hmetadata : ∀ entry ∈ todo, entry.recoveryStorage = none)
    (hdata : ∀ entry ∈ todo, entry.isRecoveryEntry = true → ∃ data, normaliseData norm entry.data = .ok data)
    (hids : ((entries ++ todo).map (·.id)).Nodup) :
    ∃ rest index', (writeAll J digest norm todo).run index = .ok (rest, index') ∧
      (registerAll J digest rest).run index = .ok ((), index') ∧
      Written J digest norm (entries ++ todo) (disk ++ rest) index' := by
  induction todo generalizing entries disk index with
  | nil => exact ⟨[], index, rfl, rfl, by simpa using h⟩
  | cons entry todo ih =>
    rw [forall_mem_cons] at hmetadata hdata
    have hid : entry.id ∉ entries.map (·.id) := fun hmem => by
      rw [map_append, nodup_append] at hids
      exact hids.2.2 entry.id hmem entry.id (by simp) rfl
    obtain ⟨written, refs, index₁, henc, hreg, hwri⟩ := written_step hdigest h hmetadata.1 hdata.1 hid
    obtain ⟨rest, index₂, hwrit, hread, hrest⟩ := ih hwri hmetadata.2 hdata.2 (by simpa using hids)
    refine ⟨written :: rest, index₂, run_writeAll_cons henc hreg hwrit, run_registerAll_cons hreg hread, ?_⟩
    simpa using hrest

end Written

end Encoding

/-! ### Decoding -/

section Decoding

variable {J : JsonText} {digest : String → String} {δ : Type}
  {norm : δ → Except String (Option JsonValue)} {index : RecoveryStorageIndex}
  {entries : List (FileEntry δ)} {disk : List (PhysicalEntry δ)}

/-- The same data: equal, or objects with the same members in some order. -/
def SameData (a b : Option JsonValue) : Prop :=
  a = b ∨ ∃ members members', a = some (.obj members) ∧ b = some (.obj members') ∧ members.Perm members'

def serialisedFields (J : JsonText) (normalise : δ → Except String (Option JsonValue))
    (entries : List (FileEntry δ)) : Set String :=
  { text | ∃ entry ∈ entries, entry.isRecoveryEntry = true ∧ ∃ members field value,
    normaliseData normalise entry.data = .ok (some (.obj members)) ∧
    members.lookup (RecoveryField.name field) = some value ∧ isFieldValue field value = true ∧ text = J.stringify value }

theorem readEntry_of_mem (hids : (disk.map (·.seen.id)).Nodup)
    (hmem : written ∈ disk) : readEntry disk written.seen.id = .ok written.seen := by
  have hfind : disk.find? (fun entry => entry.seen.id = written.seen.id) = some written := by
    induction disk with
    | nil => simp at hmem
    | cons first disk ih =>
      rw [map_cons, nodup_cons] at hids
      rcases mem_cons.mp hmem with rfl | hmem
      · simp
      · have hne : first.seen.id ≠ written.seen.id := fun heq =>
          hids.1 (mem_map.mpr ⟨written, hmem, heq.symm⟩)
        rw [List.find?_cons_of_neg (by simpa using hne)]
        exact ih hids.2 hmem
  rw [readEntry, hfind]

/-- `ref` leads to the value `field` has in `members`. -/
def Recovers (J : JsonText) (digest : String → String) (index : RecoveryStorageIndex)
    (read : String → Except String (FileEntry JsonValue)) (members : Fields)
    (field : RecoveryField) (ref : FieldReference) : Prop :=
  ∃ source data value record refs, read ref.entryId = .ok source ∧
    source.isRecoveryEntry = true ∧ source.id = ref.entryId ∧ source.data = some (.obj data) ∧
    index.records.get? ref.entryId = some record ∧ references index source record.order = .ok refs ∧
    data.lookup field.name = some value ∧ isFieldValue field value = true ∧
    digest (J.stringify value) = ref.sha256 ∧ members.lookup field.name = some value

theorem foldlM_decodeField {read : String → Except String (FileEntry JsonValue)} {members : Fields}
    (hrefs : ∀ p ∈ refs, Recovers J digest index read members p.1 p.2) (todo : List RecoveryField)
    (data : Fields) (sources : OrdMap String (FileEntry JsonValue)) (hkeys : (data.map Prod.fst).Nodup)
    (hsou : ∀ id source, sources.get? id = some source → read id = .ok source)
    (hdone : ∀ p ∈ refs, p.1 ∉ todo → data.lookup p.1.name = members.lookup p.1.name)
    (hoth : ∀ key, (∀ p ∈ refs, p.1.name ≠ key) → data.lookup key = members.lookup key) :
    ∃ result, todo.foldlM (decodeField J digest index refs read) (data, sources) = .ok result ∧
      (result.1.map Prod.fst).Nodup ∧ (∀ p ∈ refs, result.1.lookup p.1.name = members.lookup p.1.name) ∧
      ∀ key, (∀ p ∈ refs, p.1.name ≠ key) → result.1.lookup key = members.lookup key := by
  induction todo generalizing data sources with
  | nil => exact ⟨_, rfl, hkeys, fun p hp => hdone p hp (by simp), hoth⟩
  | cons field todo ih =>
    rw [foldlM_cons]
    cases hlk : refs.lookup field with
    | none =>
      have hstep : decodeField J digest index refs read (data, sources) field = .ok (data, sources) := by
        rw [decodeField, hlk]
        rfl
      rw [hstep]
      refine ih data sources hkeys hsou (fun p hp hnot => hdone p hp ?_) hoth
      rw [mem_cons, not_or]
      refine ⟨fun heq => ?_, hnot⟩
      exact OrdMap.lookup_eq_none_iff_notMem.mp hlk (mem_map.mpr ⟨p, hp, heq⟩)
    | some ref =>
      have hmem : (field, ref) ∈ refs := OrdMap.mem_of_lookup hlk
      obtain ⟨source, sourceData, value, record, sourceRefs, hread, hent, hid, hdata, hrec,
        hsourceRefs, hvl, hfie, hsha, hmemb⟩ := hrefs _ hmem
      have hsrc : readSource read sources ref.entryId = .ok source := by
        unfold readSource
        cases hcac : sources.get? ref.entryId with
        | none => exact hread
        | some cached => rw [← hread, hsou _ _ hcac]
      have hstep : decodeField J digest index refs read (data, sources) field =
          .ok (OrdMap.setList data field.name value, sources.set ref.entryId source) := by
        rw [decodeField, hlk]
        simp [hsrc, hdata, hrec, hent, hid, hsourceRefs, hvl, hfie, hsha, bind, Except.bind, pure, Except.pure]
      rw [hstep]
      refine ih _ _ (OrdMap.nodup_setList hkeys _ _) ?_ ?_ ?_
      · intro id cached hcac
        rw [OrdMap.get?_set] at hcac
        split_ifs at hcac with heq
        · rw [heq, ← Option.some.inj hcac, hread]
        · exact hsou id cached hcac
      · intro p hp hnot
        rw [OrdMap.lookup_setList]
        split_ifs with heq
        · rw [heq, hmemb]
        · refine hdone p hp ?_
          rw [mem_cons, not_or]
          exact ⟨fun hfie => heq (by rw [hfie]), hnot⟩
      · intro key hkey
        rw [OrdMap.lookup_setList, if_neg (fun heq => hkey _ hmem heq.symm)]
        exact hoth key hkey

theorem StoredData.lookup {before : List (PhysicalEntry δ)} (h : StoredData J digest before stored data) {kept : Fields}
    (hkept : stored.data = some (.obj kept)) {key : String}
    (hvl : kept.lookup key = some value) : ∃ members, data = some (.obj members) ∧ members.lookup key = some value := by
  cases h with
  | whole => exact ⟨kept, hkept, hvl⟩
  | @shared members refs hdata hstg hrefs hnd hsrc =>
    refine ⟨members, rfl, ?_⟩
    rw [hdata] at hkept
    obtain rfl := JsonValue.obj.inj (Option.some.inj hkept)
    rw [lookup_without] at hvl
    split_ifs at hvl
    exact hvl

theorem inlineOf_eq_some {source : FileEntry JsonValue} {hash : String} (h : inlineOf J digest source field = some hash) :
    ∃ data value, source.data = some (.obj data) ∧ data.lookup field.name = some value ∧
      isFieldValue field value = true ∧ digest (J.stringify value) = hash := by
  unfold inlineOf at h
  split at h
  · rename_i data hdata
    obtain ⟨value, hvl, h⟩ := Option.bind_eq_some_iff.mp h
    split_ifs at h with hfie
    exact ⟨data, value, hdata, hvl, hfie, Option.some.inj h⟩
  · cases h

theorem perm_of_lookup_eq {a b : Fields} (ha : (a.map Prod.fst).Nodup)
    (hb : (b.map Prod.fst).Nodup) (h : ∀ key, a.lookup key = b.lookup key) : a.Perm b := by
  refine (perm_ext_iff_of_nodup ha.of_map hb.of_map).mpr fun p => ?_
  constructor
  · intro hp
    exact OrdMap.mem_of_lookup ((h p.1).symm.trans (OrdMap.lookup_of_mem ha hp))
  · intro hp
    exact OrdMap.mem_of_lookup ((h p.1).trans (OrdMap.lookup_of_mem hb hp))

theorem wellFormed_normaliseData
    (hnormalise : ∀ a value, norm a = .ok (some value) → value.WellFormed) {data : Option δ}
    (h : normaliseData norm data = .ok (some value)) : value.WellFormed := by
  cases data with
  | none => cases h
  | some a => exact hnormalise a value h

variable (h : Written J digest norm entries disk index)

include h in
theorem recovers_of_written (hids : (entries.map (·.id)).Nodup)
    (hnormalise : ∀ a value, norm a = .ok (some value) → value.WellFormed)
    (hinjective : Set.InjOn digest (serialisedFields J norm entries))
    (hent : entry ∈ entries) (hreco : entry.isRecoveryEntry = true) {members : Fields}
    (hdata : normaliseData norm entry.data = .ok (some (.obj members)))
        (hvl : members.lookup field.name = some value) (hfie : isFieldValue field value = true)
    (hsha : ref.sha256 = digest (J.stringify value)) {source : FileEntry JsonValue}
    (hsrc : PhysicalEntry.recovery source ∈ disk) (hid : source.id = ref.entryId)
    (hinl : inlineOf J digest source field = some ref.sha256) :
    Recovers J digest index (readEntry disk) members field ref := by
  obtain ⟨j, hj⟩ := List.getElem?_of_mem hsrc
  have hjlt : j < entries.length := by
    rw [← h.length_eq]
    exact (List.getElem?_eq_some_iff.mp hj).1
  obtain ⟨hreco', hsour, -, data', hdata', hsto⟩ := h.stored j _ _ (List.getElem?_eq_getElem hjlt) hj
  obtain ⟨kept, value', hkept, hvl', hfie', hhash⟩ := inlineOf_eq_some hinl
  obtain ⟨members', rfl, hmemb'⟩ := hsto.lookup hkept hvl'
  have htext : J.stringify value' = J.stringify value := by
    refine hinjective ?_ ?_ (by rw [hhash, hsha])
    · exact ⟨_, getElem_mem hjlt, hreco', members', field, value', hdata', hmemb', hfie', rfl⟩
    · exact ⟨entry, hent, hreco, members, field, value, hdata, hvl, hfie, rfl⟩
  have hwf : ∀ {members : Fields} {value : JsonValue}, (JsonValue.obj members).WellFormed →
      members.lookup field.name = some value → value.WellFormed := fun hobj hlk =>
    (JsonValue.wellFormed_obj.mp hobj).2 _ (OrdMap.mem_of_lookup hlk)
  obtain rfl : value' = value := J.stringify_injective
    (hwf (wellFormed_normaliseData hnormalise hdata') hmemb')
    (hwf (wellFormed_normaliseData hnormalise hdata) hvl) htext
  obtain ⟨record, refs, hrec, -, -, hrefs⟩ := h.registered source hsrc
  have hread := readEntry_of_mem (by rw [h.ids]; exact hids) hsrc
  exact ⟨source, kept, value', record, refs, hid ▸ hread, hsour, hid, hkept, hid ▸ hrec, hrefs, hvl', hfie', hhash, hvl⟩

include h in
theorem decode_of_written (hids : (entries.map (·.id)).Nodup)
    (hnormalise : ∀ a value, norm a = .ok (some value) → value.WellFormed)
    (hinjective : Set.InjOn digest (serialisedFields J norm entries)) {i : ℕ} (hent : entries[i]? = some entry)
    (hphy : disk[i]? = some (.recovery stored)) (hdata : normaliseData norm entry.data = .ok data) :
    ∃ decoded, decode J digest index stored (readEntry disk) = .ok decoded ∧ SameData decoded data := by
  obtain ⟨hreco, -, -, data', hdata', hsto⟩ := h.stored i entry _ hent hphy
  obtain rfl : data' = data := Except.ok.inj (hdata'.symm.trans hdata)
  obtain ⟨record, refs', hrec, hord, -, hrefs'⟩ := h.registered stored (mem_of_getElem? hphy)
  cases hsto with
  | whole hstg =>
    have hnone : references index stored record.order = .ok [] := by rw [references, hstg]
    refine ⟨stored.data, ?_, Or.inl rfl⟩
    rw [decode, hrec]
    simp only [hnone, bind, Except.bind]
    rfl
  | @shared members refs hstor hstg hrefs hnd hsrc =>
    obtain rfl := eq_of_references hstg hrefs'
    have hrecovers : ∀ p ∈ refs', Recovers J digest index (readEntry disk) members p.1 p.2 := by
      intro p hp
      obtain ⟨-, ⟨value, hvl, hfie, hsha⟩, source, hmem, hid, hinl⟩ := hsrc p hp
      exact recovers_of_written h hids hnormalise hinjective (mem_of_getElem? hent) hreco
        hdata hvl hfie hsha (mem_of_mem_take hmem) hid hinl
    have hmemb := (JsonValue.wellFormed_obj.mp (wellFormed_normaliseData hnormalise hdata)).1
    obtain ⟨result, hres, hkeys, hdone, hoth⟩ := foldlM_decodeField hrecovers fields
      (without members (refs'.map (·.1.name))) ∅
      (hmemb.sublist (filter_sublist.map _)) (fun id source hget => by simp at hget)
      (fun p _ hnot => absurd (mem_fields p.1) hnot) (fun key hkey => by
        rw [lookup_without, if_neg]
        intro hmem
        obtain ⟨p, hp, heq⟩ := mem_map.mp hmem
        exact hkey p hp heq)
    have hlk : ∀ key, result.1.lookup key = members.lookup key := fun key => by
      by_cases hkey : ∀ p ∈ refs', p.1.name ≠ key
      · exact hoth key hkey
      · simp only [ne_eq, not_forall, not_not, exists_prop] at hkey
        obtain ⟨p, hp, rfl⟩ := hkey
        exact hdone p hp
    refine ⟨some (.obj result.1), ?_, Or.inr ⟨_, _, rfl, rfl, perm_of_lookup_eq hkeys hmemb hlk⟩⟩
    rw [decode, hrec]
    simp only [hrefs', hstor, bind, Except.bind]
    obtain ⟨p, refs, rfl⟩ := exists_cons_of_ne_nil hrefs
    simp only [hres]
    rfl

/-- **Sharing fields loses nothing.** Entries with distinct ids are all written, a fresh index
admits the written file, every recovery entry decodes against it to the data it was written with,
every reference is to an earlier entry of the file that stores the field whole, and `encode` leaves
the index as it is. -/
theorem recovery_storage_lossless (J : JsonText) (digest : String → String)
    (normalise : δ → Except String (Option JsonValue)) (hdigest : ∀ s, isSha256 (digest s) = true)
    (hnormalise : ∀ a value, normalise a = .ok (some value) → value.WellFormed)
    (entries : List (FileEntry δ)) (hids : (entries.map (·.id)).Nodup)
    (hmetadata : ∀ entry ∈ entries, entry.recoveryStorage = none)
    (hdata : ∀ entry ∈ entries, entry.isRecoveryEntry = true → ∃ data, normaliseData normalise entry.data = .ok data)
    (hinjective : Set.InjOn digest (serialisedFields J normalise entries)) :
    ∃ physical index, (writeAll J digest normalise entries).run {} = .ok (physical, index) ∧
      physical.length = entries.length ∧ (registerAll J digest physical).run {} = .ok ((), index) ∧
      (∀ (i : ℕ) entry written, entries[i]? = some entry → physical[i]? = some written → match written with
        | .other written _ => written = entry
        | .recovery stored => stored.id = entry.id ∧ ∃ data decoded, normaliseData normalise entry.data = .ok data ∧
            decode J digest index stored (readEntry physical) = .ok decoded ∧ SameData decoded data) ∧
      (∀ (i : ℕ) stored record refs, physical[i]? = some (.recovery stored) → index.records.get? stored.id = some record →
        references index stored record.order = .ok refs → ∀ field ref, (field, ref) ∈ refs →
        ∃ j < i, ∃ source, physical[j]? = some (.recovery source) ∧ source.id = ref.entryId ∧
          inlineOf J digest source field = some ref.sha256) ∧
      ∀ index entry written index', (encode J digest normalise entry).run index =
        .ok (written, index') → index' = index := by
  obtain ⟨physical, index, hwrit, hread, hwri⟩ := written_writeAll hdigest entries written_nil hmetadata hdata hids
  rw [nil_append, nil_append] at hwri
  refine ⟨physical, index, hwrit, hwri.length_eq, hread, ?_, ?_, fun _ _ _ _ h => run_encode_index h⟩
  · intro i entry written hent hphy
    have hsto := hwri.stored i entry written hent hphy
    cases written with
    | other written hoth => exact hsto
    | recovery stored =>
      obtain ⟨-, -, hid, data, hdata, -⟩ := hsto
      obtain ⟨decoded, hdec, hsame⟩ := decode_of_written hwri hids hnormalise hinjective
        hent hphy hdata
      exact ⟨hid, data, decoded, hdata, hdec, hsame⟩
  · intro i stored record refs hphy hrec hrefs field ref hmem
    have hi : i < entries.length := by
      rw [← hwri.length_eq]
      exact (List.getElem?_eq_some_iff.mp hphy).1
    obtain ⟨-, -, -, data, -, hsto⟩ := hwri.stored i _ _ (List.getElem?_eq_getElem hi) hphy
    cases hsto with
    | whole hstg =>
      rw [references, hstg] at hrefs
      cases hrefs
      simp at hmem
    | shared _ hstg _ _ hsrc =>
      obtain rfl := eq_of_references hstg hrefs
      obtain ⟨-, -, source, hsourceMem, hid, hinl⟩ := hsrc _ hmem
      obtain ⟨j, hj⟩ := List.getElem?_of_mem hsourceMem
      rw [List.getElem?_take] at hj
      split_ifs at hj with hji
      exact ⟨j, hji, source, hj, hid, hinl⟩

/-- A system prompt long enough to be shared. -/
def longPrompt : String := String.ofList (List.replicate 600 'a')

/-- SHA-256 on the texts of the two fields below. -/
def pairDigest (text : String) : String :=
  if text = Standard.stringify (.arr [.str "hi"])
  then "80e2a72672ff27c2e0e49a77268d65b6ddce177702d20d7df0c63a4bcf10540d"
  else "d0f6d167d6f993ab755a365d48f861b8cfa08f193679310006366b9c3d4e13d8"

/-- Two entries with the same long system prompt and the same short prompt. -/
theorem recovery_storage_lossless_pair :
    let members : Fields := [("systemPrompt", .str longPrompt), ("prompt", .arr [.str "hi"])]
    let normalise : Unit → Except String (Option JsonValue) := fun _ => .ok (some (.obj members))
    let entries : List (FileEntry Unit) :=
      [{ type := "session", id := "s" },
       { type := "custom", customType := some "pi-task-recovery", id := "a", data := some () },
       { type := "custom", customType := some "pi-task-recovery", id := "b", data := some () }]
    ∃ physical index, (writeAll .printed pairDigest normalise entries).run {} = .ok (physical, index) ∧
      (registerAll .printed pairDigest physical).run {} = .ok ((), index) := by
  intro members normalise entries
  have hdigest : ∀ s, isSha256 (pairDigest s) = true := by
    intro s
    unfold pairDigest
    split_ifs <;> decide +kernel
  have hmemb : (JsonValue.obj members).WellFormed := by
    simp [members, JsonValue.WellFormed, JsonValue.WellFormedFields, JsonValue.WellFormedList]
  have hinjective : Set.InjOn pairDigest (serialisedFields .printed normalise entries) := by
    have htext : ∀ text ∈ serialisedFields .printed normalise entries,
        text = JsonText.printed.stringify (.arr [.str "hi"]) ∨ text = JsonText.printed.stringify (.str longPrompt) := by
      rintro text ⟨entry, -, -, members', field, value, hmemb', hvl, -, rfl⟩
      obtain ⟨rfl⟩ : members' = members := by
        cases hd : entry.data <;> simp [normaliseData, hd, normalise] at hmemb'
        exact hmemb'.symm
      cases field <;> simp [members, List.lookup_cons, RecoveryField.name] at hvl <;> simp [← hvl]
    have hne : pairDigest (JsonText.printed.stringify (.arr [.str "hi"])) ≠
        pairDigest (JsonText.printed.stringify (.str longPrompt)) := by
      have htex : JsonText.printed.stringify (.str longPrompt) ≠
          JsonText.printed.stringify (.arr [.str "hi"]) := fun heq => by
        cases JsonText.printed.stringify_injective (by simp [JsonValue.WellFormed])
          (by simp [JsonValue.WellFormed, JsonValue.WellFormedList]) heq
      have hsame : pairDigest (JsonText.printed.stringify (.arr [.str "hi"])) = _ := if_pos rfl
      have hother : pairDigest (JsonText.printed.stringify (.str longPrompt)) = _ := if_neg htex
      rw [hsame, hother]
      decide
    intro a ha b hb heq
    rcases htext a ha with rfl | rfl <;> rcases htext b hb with rfl | rfl
    · rfl
    · exact absurd heq hne
    · exact absurd heq.symm hne
    · rfl
  obtain ⟨physical, index, hwrit, -, hread, -⟩ := recovery_storage_lossless .printed pairDigest
    normalise hdigest (fun _ _ h => by cases h; exact hmemb) entries (by decide) (by decide)
    (fun entry _ _ => by cases h : entry.data <;> exact ⟨_, rfl⟩) hinjective
  exact ⟨physical, index, hwrit, hread⟩

end Decoding

end RecoveryStorage
end EasyPi.CodingAgent
