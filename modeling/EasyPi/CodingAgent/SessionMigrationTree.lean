/-
# A migrated session is a linear tree

Migration of a version-1 session gives every entry the first identifier that the random source yields,
and the entry before it as its parent. It is not checked whether an identifier is taken: distinct ones
make a list that validates. The index of a first entry kept is replaced by the id of that entry, or
dropped if it is the index of the header. Without a header, nothing tells that the migration was done.
-/
import EasyPi.CodingAgent.SessionMigration
import EasyPi.Lib.Pointwise
import Mathlib.Algebra.Order.Ring.Rat
import Mathlib.Data.Nat.Cast.Order.Ring

namespace EasyPi.CodingAgent

open List
namespace SessionMigration

section Set
variable {entry : FileEntry} {key key' type : String} {value : JsonValue}

theorem lookup_set (entry : FileEntry) (key key' : String) (value : JsonValue) :
    (set entry key value).lookup key' = if key' = key then some value else entry.lookup key' := by
  rw [set, assign, foldl_cons, foldl_nil, OrdMap.lookup_setList]

theorem lookup_set_ne (h : key' ≠ key) : (set entry key value).lookup key' = entry.lookup key' := by
  rw [lookup_set, if_neg h]

@[simp] theorem lookup_set_self : (set entry key value).lookup key = some value := by
  rw [lookup_set, if_pos rfl]

theorem lookup_without_ne (h : key' ≠ key) : (without entry [key]).lookup key' = entry.lookup key' := by
  rw [lookup_without, if_neg (by simpa using h)]

@[simp] theorem lookup_without_self : (without entry [key]).lookup key = none := by
  rw [lookup_without, if_pos (mem_singleton_self key)]

theorem hasType_congr {entry' : FileEntry} (h : entry'.lookup "type" = entry.lookup "type") :
    hasType entry' type = hasType entry type := by
  rw [hasType, hasType, h]

end Set

/-! ### Identifiers and references -/

section Loop
variable {random : ℕ → Uuid} {entry entry' : FileEntry} {entries out : List FileEntry}

theorem generateId_nil (used : ℕ) : generateId random [] used = ((random used).short, used + 1) := by
  rw [generateId, generateIdLoop, if_neg (not_mem_nil)]

/-- The reference of a compaction entry; other entries have none. -/
def reference (entries : List FileEntry) (entry : FileEntry) : FileEntry :=
  if hasType entry "compaction" then convertIndex entries entry else entry

/-- What the first migration makes of an entry, where the references are read in `out`. -/
structure Assigned (out : List FileEntry) (entry entry' : FileEntry) : Prop where
  header : isHeader entry = true → entry' = set entry "version" (.num 2)
  body : isHeader entry = false → ∃ id parent, entry' = reference out (set (set entry "id" (.str id)) "parentId" parent)

/-- Each entry has the id at its place, and the id before as its parent. -/
inductive Chained : Option String → List String → List FileEntry → Prop
  | nil {prev : Option String} : Chained prev [] []
  | cons {prev : Option String} {id : String} {ids : List String} {entry : FileEntry}
      {entries : List FileEntry} (hasId : entry.lookup "id" = some (.str id))
      (hasParent : entry.lookup "parentId" = some (parentLink prev))
      (rest : Chained (some id) ids entries) : Chained prev (id :: ids) (entry :: entries)

/-- The entries that are not headers. -/
def bodies (entries : List FileEntry) : List FileEntry := entries.filter fun entry => !isHeader entry

/-- The identifiers that the random source yields, from `used` on. -/
def idsFrom (random : ℕ → Uuid) (used n : ℕ) : List String := (List.range' used n).map fun k => (random k).short

/-- The compaction entries refer to entries before them. -/
def RefersBack (start : ℕ) (entries : List FileEntry) : Prop :=
  ∀ before entry after, entries = before ++ entry :: after → hasType entry "compaction" = true →
    ∀ index, entry.lookup "firstKeptEntryIndex" = some (.num index) → ∃ j < start + before.length, index = (j : ℚ)

theorem entryAt_natCast (entries : List FileEntry) (j : ℕ) : entryAt entries (j : ℚ) = entries[j]? := by
  rw [entryAt, if_pos ⟨by simp [Rat.isInt], Nat.cast_nonneg j⟩, Rat.num_natCast, Int.toNat_natCast]

theorem reference_congr (h : hasType entry "compaction" = true → ∀ index,
    entry.lookup "firstKeptEntryIndex" = some (.num index) → entryAt entries index = entryAt out index) :
    reference entries entry = reference out entry := by
  unfold reference
  split
  · rename_i htype
    unfold convertIndex
    split
    · rename_i index hidx
      rw [h htype index hidx]
    · rfl
  · rfl

theorem lookup_reference_ne {key : String} (hid : key ≠ "firstKeptEntryId")
    (hidx : key ≠ "firstKeptEntryIndex") : (reference entries entry).lookup key = entry.lookup key := by
  unfold reference
  split
  · unfold convertIndex
    split
    · dsimp only
      rw [lookup_without_ne hidx]
      split
      · split
        · rfl
        · unfold setOptional
          split
          · exact lookup_set_ne hid
          · exact lookup_without_ne hid
      · rfl
    · rfl
  · rfl

theorem lookup_assigned {id : String} {parent : JsonValue} {key : String} (hid : key ≠ "id")
    (hpar : key ≠ "parentId") : (set (set entry "id" (.str id)) "parentId" parent).lookup key = entry.lookup key := by
  rw [lookup_set_ne hpar, lookup_set_ne hid]

theorem Assigned.type_eq (h : Assigned out entry entry') : entry'.lookup "type" = entry.lookup "type" := by
  cases hhdr : isHeader entry with
  | true => rw [h.header hhdr, lookup_set_ne (by decide)]
  | false =>
    obtain ⟨id, parent, rfl⟩ := h.body hhdr
    rw [lookup_reference_ne (by decide) (by decide), lookup_assigned (by decide) (by decide)]

theorem RefersBack.tail {start : ℕ} (h : RefersBack start (entry :: entries)) : RefersBack (start + 1) entries := by
  intro before other after heq htype index hidx
  obtain ⟨j, hj, rfl⟩ := h (entry :: before) other after (by rw [heq, cons_append]) htype index hidx
  rw [length_cons] at hj
  exact ⟨j, by omega, rfl⟩

/-- **The first migration** leaves what it has passed, and gives the other entries identifiers in order. -/
theorem migrateV1ToV2Loop_spec (prevId : Option String) (used : ℕ) (done rest : List FileEntry)
    (hback : RefersBack done.length rest) : ∃ tail, migrateV1ToV2Loop random [] prevId used done rest = done ++ tail ∧
      List.Forall₂ (Assigned (done ++ tail)) rest tail ∧
      Chained prevId (idsFrom random used (bodies rest).length) (bodies tail) := by
  induction rest generalizing prevId used done with
  | nil => exact ⟨[], (append_nil _).symm, .nil, .nil⟩
  | cons entry rest ih =>
    rw [migrateV1ToV2Loop]
    have hasso : ∀ (entry : FileEntry) tail, done ++ [entry] ++ tail = done ++ entry :: tail := fun entry tail => by
      rw [append_assoc, singleton_append]
    have hback' : ∀ entry : FileEntry, RefersBack (done ++ [entry]).length rest := fun entry => by
      rw [length_append, length_singleton]
      exact hback.tail
    split
    · rename_i hhdr
      obtain ⟨tail, htail, hall, hcha⟩ := ih prevId used _ (hback' (set entry "version" (.num 2)))
      rw [hasso] at htail hall
      refine ⟨set entry "version" (.num 2) :: tail, htail, .cons ⟨fun _ => rfl, fun h => ?_⟩ hall, ?_⟩
      · rw [hhdr] at h
        cases h
      · have hhdr' : isHeader (set entry "version" (.num 2)) = true := by
          rw [isHeader, hasType_congr (lookup_set_ne (by decide))]
          exact hhdr
        rw [bodies, bodies, filter_cons_of_neg (by simp [hhdr]), filter_cons_of_neg (by simp [hhdr'])]
        exact hcha
    · rename_i hhdr
      rw [generateId_nil]
      dsimp only
      generalize hent : set (set entry "id" (.str (random used).short)) "parentId" (parentLink prevId) = assigned
      have hkeep : ∀ key ≠ "id", key ≠ "parentId" → assigned.lookup key = entry.lookup key := by
        intro key hid hpar
        rw [← hent]
        exact lookup_assigned hid hpar
      change ∃ tail, migrateV1ToV2Loop random [] (some (random used).short) (used + 1)
        (done ++ [reference (done ++ assigned :: rest) assigned]) rest = done ++ tail ∧ _ ∧ _
      obtain ⟨tail, htail, hall, hcha⟩ := ih (some (random used).short) (used + 1) _
        (hback' (reference (done ++ assigned :: rest) assigned))
      rw [hasso] at htail hall
      -- the entry that is referred to has been passed already
      have href : reference (done ++ assigned :: rest) assigned =
          reference (done ++ reference (done ++ assigned :: rest) assigned :: tail) assigned := by
        refine reference_congr fun htype index hidx => ?_
        rw [hasType_congr (hkeep "type" (by decide) (by decide))] at htype
        rw [hkeep _ (by decide) (by decide)] at hidx
        obtain ⟨j, hj, rfl⟩ := hback [] entry rest rfl htype index hidx
        rw [length_nil, Nat.add_zero] at hj
        rw [entryAt_natCast, entryAt_natCast, List.getElem?_append_left hj, List.getElem?_append_left hj]
      generalize hrefe : reference (done ++ assigned :: rest) assigned = referred at *
      refine ⟨referred :: tail, htail, .cons ⟨fun h => absurd h hhdr, fun _ => ?_⟩ hall, ?_⟩
      · exact ⟨_, _, href.trans (by rw [hent])⟩
      · have hlk : ∀ key ≠ "firstKeptEntryId", key ≠ "firstKeptEntryIndex" →
            referred.lookup key = assigned.lookup key := by
          intro key hid hidx
          rw [← hrefe]
          exact lookup_reference_ne hid hidx
        have hhdr' : isHeader referred = false := by
          rw [isHeader, hasType_congr ((hlk "type" (by decide) (by decide)).trans
            (hkeep "type" (by decide) (by decide)))]
          exact Bool.eq_false_iff.mpr hhdr
        rw [bodies, bodies, filter_cons_of_pos (by simpa using hhdr),
          filter_cons_of_pos (by simp [hhdr']), length_cons, idsFrom, List.range'_succ, map_cons]
        refine .cons ?_ ?_ hcha
        · rw [hlk _ (by decide) (by decide), ← hent, lookup_set_ne (by decide), lookup_set_self]
        · rw [hlk _ (by decide) (by decide), ← hent, lookup_set_self]

end Loop

/-! ### The second migration -/

section ToV3
variable {entry : FileEntry} {key : String}

theorem lookup_renameRole_ne (h : key ≠ "message") : (renameRole entry).lookup key = entry.lookup key := by
  unfold renameRole
  split
  · split
    · exact lookup_set_ne h
    · rfl
  · rfl

theorem lookup_migrateEntryToV3_ne (hversion : key ≠ "version") (hmes : key ≠ "message") :
    (migrateEntryToV3 entry).lookup key = entry.lookup key := by
  unfold migrateEntryToV3
  split
  · exact lookup_set_ne hversion
  · split
    · exact lookup_renameRole_ne hmes
    · rfl

theorem isHeader_migrateEntryToV3 : isHeader (migrateEntryToV3 entry) = isHeader entry :=
  hasType_congr (lookup_migrateEntryToV3_ne (by decide) (by decide))

/-- A hook message is what an entry of type `message` holds. -/
def IsHook (entry : FileEntry) (message : Fields) : Prop :=
  hasType entry "message" = true ∧ entry.lookup "message" = some (.obj message) ∧
    message.lookup "role" = some (.str "hookMessage")

theorem lookup_message_of_hook {message : Fields} (h : IsHook entry message) :
    (migrateEntryToV3 entry).lookup "message" = some (.obj (set message "role" (.str "custom"))) := by
  obtain ⟨htype, hmes, hrole⟩ := h
  have hhdr : ¬ isHeader entry = true := by
    intro hhdr
    rw [isHeader, hasType, decide_eq_true_eq] at hhdr
    rw [hasType, hhdr] at htype
    exact absurd htype (by decide)
  rw [migrateEntryToV3, if_neg hhdr, if_pos htype, renameRole, hmes]
  dsimp only
  rw [if_pos hrole, lookup_set_self]

theorem lookup_message_of_not_hook (h : ∀ message, ¬ IsHook entry message) :
    (migrateEntryToV3 entry).lookup "message" = entry.lookup "message" := by
  unfold migrateEntryToV3
  split
  · exact lookup_set_ne (by decide)
  · split
    · rename_i htype
      unfold renameRole
      split
      · rename_i message hmes
        rw [if_neg fun hrole => h message ⟨htype, hmes, hrole⟩]
      · rfl
    · rfl

theorem bodies_migrateV2ToV3 (entries : List FileEntry) :
    bodies (migrateV2ToV3 entries) = (bodies entries).map migrateEntryToV3 := by
  rw [bodies, migrateV2ToV3, filter_map]
  congr 1
  refine filter_congr fun entry _ => ?_
  rw [Function.comp_apply, isHeader_migrateEntryToV3]

variable {prev : Option String} {ids : List String}

theorem Chained.migrate {entries : List FileEntry}
    (h : Chained prev ids entries) : Chained prev ids (entries.map migrateEntryToV3) := by
  induction h with
  | nil => exact .nil
  | cons hid hpar _ ih =>
    refine .cons ?_ ?_ ih
    · rw [lookup_migrateEntryToV3_ne (by decide) (by decide)]
      exact hid
    · rw [lookup_migrateEntryToV3_ne (by decide) (by decide)]
      exact hpar

end ToV3

/-! ### The whole migration -/

section Whole
variable {random : ℕ → Uuid} {entries out : List FileEntry}

/-- What an entry becomes: new links, a reference by id in place of one by index, the role of a hook
message, and nothing else. -/
structure MigratedEntry (entries out : List FileEntry) (entry entry' : FileEntry) : Prop where
  header : isHeader entry = true → entry'.lookup "version" = some (.num 3) ∧
    ∀ key ≠ "version", entry'.lookup key = entry.lookup key
  kept : isHeader entry = false → ∀ key ∉ ["id", "parentId", "firstKeptEntryId", "firstKeptEntryIndex", "message"],
      entry'.lookup key = entry.lookup key
  hook : ∀ message, IsHook entry message → ∃ message', entry'.lookup "message" = some (.obj message') ∧
    message'.lookup "role" = some (.str "custom") ∧ ∀ key ≠ "role", message'.lookup key = message.lookup key
  otherMessage : (∀ message, ¬ IsHook entry message) → entry'.lookup "message" = entry.lookup "message"
  reference : hasType entry "compaction" = true →
    ∀ j : ℕ, entry.lookup "firstKeptEntryIndex" = some (.num j) → ∃ target target' : FileEntry,
      entries[j]? = some target ∧ out[j]? = some target' ∧ entry'.lookup "firstKeptEntryIndex" = none ∧
      (isHeader target = false → entry'.lookup "firstKeptEntryId" = target'.lookup "id") ∧
      (isHeader target = true → entry'.lookup "firstKeptEntryId" = entry.lookup "firstKeptEntryId")
  otherReference : isHeader entry = false → (hasType entry "compaction" = true →
      ∀ index, entry.lookup "firstKeptEntryIndex" ≠ some (.num index)) →
    entry'.lookup "firstKeptEntryId" = entry.lookup "firstKeptEntryId" ∧
      entry'.lookup "firstKeptEntryIndex" = entry.lookup "firstKeptEntryIndex"

/-- The entries are migrated one by one, and form a chain of distinct ids. -/
structure Migrated (entries out : List FileEntry) : Prop where
  each : List.Forall₂ (MigratedEntry entries out) entries out
  tree : ∃ ids : List String, ids.Nodup ∧ Chained none ids (bodies out)

variable {entry : FileEntry} {prev : Option String}

theorem not_header_of_type {type : String} (h : hasType entry type = true)
    (hne : type ≠ "session") : isHeader entry = false := by
  rw [hasType, decide_eq_true_eq] at h
  rw [isHeader, hasType, h, decide_eq_false_iff_not]
  simpa using hne

theorem lookup_reference {entry target : FileEntry} {j : ℕ} (htype : hasType entry "compaction" = true)
    (hidx : entry.lookup "firstKeptEntryIndex" = some (.num j)) (htgt : out[j]? = some target) :
    (reference out entry).lookup "firstKeptEntryIndex" = none ∧ (reference out entry).lookup "firstKeptEntryId" =
        if isHeader target then entry.lookup "firstKeptEntryId" else target.lookup "id" := by
  rw [reference, if_pos htype, convertIndex, hidx]
  dsimp only
  rw [lookup_without_self, lookup_without_ne (by decide), entryAt_natCast, htgt]
  dsimp only
  refine ⟨rfl, ?_⟩
  split
  · rfl
  · unfold setOptional
    split
    · rename_i value hvl
      rw [lookup_set_self, hvl]
    · rename_i hnone
      rw [lookup_without_self, hnone]

theorem reference_of_not (h : hasType entry "compaction" = true →
    ∀ index, entry.lookup "firstKeptEntryIndex" ≠ some (.num index)) : reference out entry = entry := by
  unfold reference
  split
  · rename_i htype
    unfold convertIndex
    split
    · rename_i index hidx
      exact absurd hidx (h htype index)
    · rfl
  · rfl

theorem migratedEntry_of_assigned {entry entry' : FileEntry} (h : Assigned out entry entry')
    (hall : List.Forall₂ (Assigned out) entries out) (hback : hasType entry "compaction" = true → ∀ index,
      entry.lookup "firstKeptEntryIndex" = some (.num index) → ∃ j < entries.length, index = (j : ℚ)) :
    MigratedEntry entries (migrateV2ToV3 out) entry (migrateEntryToV3 entry') := by
  have hhdr' : isHeader entry' = isHeader entry := hasType_congr h.type_eq
  -- what the first migration leaves of an entry that is no header
  have hkept : isHeader entry = false → ∀ key, key ≠ "id" → key ≠ "parentId" → key ≠ "firstKeptEntryId" →
      key ≠ "firstKeptEntryIndex" → entry'.lookup key = entry.lookup key := by
    intro hhdr key hid hpar hkep hidx
    obtain ⟨id, parent, rfl⟩ := h.body hhdr
    rw [lookup_reference_ne hkep hidx, lookup_assigned hid hpar]
  have hmes : entry'.lookup "message" = entry.lookup "message" := by
    cases hhdr : isHeader entry with
    | true => rw [h.header hhdr, lookup_set_ne (by decide)]
    | false => exact hkept hhdr _ (by decide) (by decide) (by decide) (by decide)
  have hhook : ∀ message, IsHook entry' message ↔ IsHook entry message := by
    intro message
    rw [IsHook, IsHook, hasType_congr h.type_eq, hmes]
  refine ⟨fun hhdr => ?_, fun hhdr key hkey => ?_, fun message hmsg => ?_, fun hnone => ?_,
    fun htype j hidx => ?_, fun hhdr hnone => ?_⟩
  · rw [h.header hhdr] at hhdr' ⊢
    rw [migrateEntryToV3, if_pos (hhdr'.trans hhdr), lookup_set_self]
    refine ⟨rfl, fun key hkey => ?_⟩
    rw [lookup_set_ne hkey, lookup_set_ne hkey]
  · simp only [mem_cons, not_mem_nil, or_false, not_or] at hkey
    obtain ⟨hid, hpar, hkep, hidx, hmsg⟩ := hkey
    rw [← hkept hhdr key hid hpar hkep hidx, migrateEntryToV3, if_neg (by rw [hhdr', hhdr]; decide)]
    split
    · exact lookup_renameRole_ne hmsg
    · rfl
  · refine ⟨_, lookup_message_of_hook ((hhook message).mpr hmsg), lookup_set_self, fun key hkey => ?_⟩
    exact lookup_set_ne hkey
  · rw [lookup_message_of_not_hook fun message hmsg => hnone message ((hhook message).mp hmsg), hmes]
  · have hhdr := not_header_of_type htype (by decide)
    obtain ⟨id, parent, rfl⟩ := h.body hhdr
    obtain ⟨j', hj, hjj⟩ := hback htype j hidx
    obtain rfl : j = j' := Nat.cast_injective hjj
    obtain ⟨target, htgt⟩ : ∃ target, entries[j]? = some target := ⟨_, List.getElem?_eq_getElem hj⟩
    obtain ⟨target', htgt'⟩ : ∃ target', out[j]? = some target' := ⟨_, List.getElem?_eq_getElem (hall.length_eq ▸ hj)⟩
    have htar : isHeader target' = isHeader target := hasType_congr (Pointwise.at_index hall htgt htgt').type_eq
    have hass : ∀ key, key ≠ "id" → key ≠ "parentId" →
        (set (set entry "id" (.str id)) "parentId" parent).lookup key = entry.lookup key :=
      fun key => lookup_assigned
    obtain ⟨hnone, hid⟩ := lookup_reference (by rw [hasType_congr (hass _ (by decide) (by decide))]; exact htype)
      (by rw [hass _ (by decide) (by decide)]; exact hidx) htgt'
    refine ⟨target, migrateEntryToV3 target', htgt, ?_, ?_, fun h => ?_, fun h => ?_⟩
    · rw [migrateV2ToV3, List.getElem?_map, htgt', Option.map_some]
    · rw [lookup_migrateEntryToV3_ne (by decide) (by decide), hnone]
    · rw [lookup_migrateEntryToV3_ne (by decide) (by decide), hid, htar, h, if_neg Bool.false_ne_true,
        lookup_migrateEntryToV3_ne (by decide) (by decide)]
    · rw [lookup_migrateEntryToV3_ne (by decide) (by decide), hid, htar, h, if_pos rfl, hass _ (by decide) (by decide)]
  · obtain ⟨id, parent, rfl⟩ := h.body hhdr
    rw [lookup_migrateEntryToV3_ne (by decide) (by decide), lookup_migrateEntryToV3_ne (by decide) (by decide),
      reference_of_not, lookup_assigned (by decide) (by decide), lookup_assigned (by decide) (by decide)]
    · exact ⟨rfl, rfl⟩
    · intro htype index hidx
      rw [hasType_congr (lookup_assigned (by decide) (by decide))] at htype
      rw [lookup_assigned (by decide) (by decide)] at hidx
      exact hnone htype index hidx

/-! ### Validation -/

theorem buildEntryIndex_of_chained {entries : List FileEntry}
    (h : Chained prev ids entries) (hbl : ∀ id ∈ ids, isNonBlank id = true)
    {index : List (String × FileEntry)} (hdst : (index.map (·.1) ++ ids).Nodup) :
    buildEntryIndex index entries = .ok (index ++ ids.zip entries) := by
  induction h generalizing index with
  | nil => rw [buildEntryIndex, zip_nil_left, append_nil]
  | @cons prev id ids entry entries hid _ _ ih =>
    obtain ⟨hnon, hbl⟩ := forall_mem_cons.mp hbl
    have hnew : id ∉ index.map (·.1) := by
      intro hmem
      exact (nodup_append.mp hdst).2.2 id hmem id (mem_cons_self ..) rfl
    rw [buildEntryIndex, hid]
    dsimp only
    rw [if_pos hnon, if_neg hnew, ih hbl, zip_cons_cons, append_assoc, singleton_append]
    rw [map_append, map_singleton, append_assoc, singleton_append]
    exact hdst

theorem walkParents_of_checked {index : List (String × FileEntry)} {checked : List String} {id : String}
    (hpar : entry.lookup "parentId" = some (parentLink prev))
    (hprev : ∀ parent, prev = some parent → parent ∈ checked) (hid : id ∉ checked) (fuel : ℕ) :
    walkParents index checked (fuel + 2) [] (some (id, entry)) = .ok [id] := by
  rw [walkParents, if_neg hid, if_neg not_mem_nil, nil_append, parentOf, hpar]
  cases prev with
  | none =>
    rw [parentLink]
    dsimp only
    rw [walkParents]
  | some parent =>
    rw [parentLink]
    dsimp only
    split
    · rw [walkParents]
    · cases index.lookup parent with
      | none =>
        rw [Option.map_none, walkParents]
      | some found =>
        rw [Option.map_some, walkParents, if_pos (hprev parent rfl)]

theorem checkEntries_of_chained {entries : List FileEntry}
    (h : Chained prev ids entries) {index : List (String × FileEntry)} (hidx : ids.length ≤ index.length)
    {checked : List String} (hprev : ∀ parent, prev = some parent → parent ∈ checked)
    (hdst : (checked ++ ids).Nodup) : checkEntries index checked (ids.zip entries) = .ok () := by
  induction h generalizing checked with
  | nil => rfl
  | @cons prev id ids entry entries hid hpar _ ih =>
    obtain ⟨fuel, hfuel⟩ : ∃ fuel, index.length + 1 = fuel + 2 := by
      rw [length_cons] at hidx
      exact ⟨index.length - 1, by omega⟩
    have hnew : id ∉ checked := by
      intro hmem
      exact (nodup_append.mp hdst).2.2 id hmem id (mem_cons_self ..) rfl
    rw [zip_cons_cons, checkEntries, hfuel, walkParents_of_checked hpar hprev hnew]
    refine ih (by rw [length_cons] at hidx; omega) ?_ ?_
    · rintro parent heq
      cases heq
      exact mem_append_right _ (mem_singleton_self _)
    · rw [append_assoc, singleton_append]
      exact hdst

theorem Chained.length_eq {entries : List FileEntry} (h : Chained prev ids entries) : ids.length = entries.length := by
  induction h with
  | nil => rfl
  | cons _ _ _ ih => rw [length_cons, length_cons, ih]

/-- **A chain of distinct ids validates.** -/
theorem validateSessionGraph_of_chained (h : Chained none ids (bodies entries))
    (hbl : ∀ id ∈ ids, isNonBlank id = true) (hdst : ids.Nodup) : validateSessionGraph entries = .ok () := by
  have hbui := @buildEntryIndex_of_chained none ids (bodies entries) h hbl [] hdst
  rw [bodies] at hbui
  rw [validateSessionGraph, hbui]
  refine checkEntries_of_chained h ?_ (fun _ heq => by cases heq) hdst
  rw [nil_append, length_zip, h.length_eq]
  exact Nat.le_of_eq (Nat.min_self _).symm

theorem isNonBlank_short (uuid : Uuid) : isNonBlank uuid.short = true := by
  have hdig : ∀ c ∈ "0123456789abcdef".toList, isWhiteSpace c = false := by
    simpa using (show ("0123456789abcdef".toList.all fun c => !isWhiteSpace c) = true by decide +kernel)
  have hlen : (uuid.text.take 8).length = 8 := by
    rw [length_take]
    exact Nat.min_eq_left uuid.length
  obtain ⟨c, hc⟩ := exists_mem_of_length_pos (show 0 < (uuid.text.take 8).length by omega)
  rw [isNonBlank, Uuid.short, String.toList_ofList, any_eq_true]
  exact ⟨c, hc, by rw [hdig c (uuid.hex c hc)]; rfl⟩

/-! ### Results -/

/-- The random source yields different identifiers for the entries. -/
def Fresh (random : ℕ → Uuid) (n : ℕ) : Prop := ∀ i j, i < j → j < n → (random i).short ≠ (random j).short

theorem nodup_idsFrom {n : ℕ} (h : Fresh random n) : (idsFrom random 0 n).Nodup := by
  rw [idsFrom, nodup_map_iff_inj_on (nodup_range' ..)]
  intro i hi j hj heq
  rw [mem_range'_1] at hi hj
  by_contra hne
  rcases Nat.lt_or_gt_of_ne hne with hlt | hlt
  · exact h i j hlt (by omega) heq
  · exact h j i hlt (by omega) heq.symm

theorem nonBlank_idsFrom {used n : ℕ} : ∀ id ∈ idsFrom random used n, isNonBlank id = true := by
  intro id hid
  obtain ⟨k, -, rfl⟩ := mem_map.mp hid
  exact isNonBlank_short (random k)

theorem migrateSessionEntries_of_migrated (h : Migrated entries out)
    (hhdr : ∃ header ∈ entries, isHeader header = true) : migrateSessionEntries random out = out := by
  have hcur : ∀ header ∈ out, isHeader header = true → header.lookup "version" = some (.num 3) := by
    intro header' hmem hhdr'
    obtain ⟨header, hmem, hent⟩ := Pointwise.left h.each hmem
    cases hcase : isHeader header with
    | true => exact (hent.header hcase).1
    | false =>
      have htype := hent.kept hcase "type" (by decide)
      rw [isHeader, hasType_congr htype] at hhdr'
      rw [isHeader, hhdr'] at hcase
      cases hcase
  have hsome : (out.find? isHeader).isSome = true := by
    obtain ⟨header, hmem, hhdr⟩ := hhdr
    obtain ⟨header', hmem', hent⟩ := Pointwise.right h.each hmem
    rw [List.find?_isSome]
    refine ⟨header', hmem', ?_⟩
    rw [isHeader, hasType_congr ((hent.header hhdr).2 "type" (by decide))]
    exact hhdr
  obtain ⟨header, hfnd⟩ := Option.isSome_iff_exists.mp hsome
  have hversion : versionOf out = some 3 := by
    rw [versionOf, hfnd, Option.bind_some, hcur header (mem_of_find?_eq_some hfnd) (List.find?_some hfnd)]
  rw [migrateSessionEntries, migrateToCurrentVersion, hversion, if_pos (by simp)]

/-- **Migration of a version-1 session** makes a chain of its entries, changes only the links, the
references and the roles of hook messages, and yields a valid graph; it is not done twice if there is a
header. -/
theorem migrateSessionEntries_valid (random : ℕ → Uuid) (entries : List FileEntry)
    (hversion : versionOf entries = some 1) (hback : RefersBack 0 entries)
    (hfresh : Fresh random (bodies entries).length) : Migrated entries (migrateSessionEntries random entries) ∧
      validateSessionGraph (migrateSessionEntries random entries) = .ok () ∧
      ((∃ header ∈ entries, isHeader header = true) → ∀ random' : ℕ → Uuid,
        migrateSessionEntries random' (migrateSessionEntries random entries) = migrateSessionEntries random entries) := by
  obtain ⟨out, hout, hall, hcha⟩ := @migrateV1ToV2Loop_spec random none 0 [] entries hback
  rw [nil_append] at hout hall
  have hmig : migrateSessionEntries random entries = migrateV2ToV3 out := by
    rw [migrateSessionEntries, migrateToCurrentVersion, hversion, ← hout]
    rfl
  have hcha' : Chained none (idsFrom random 0 (bodies entries).length) (bodies (migrateV2ToV3 out)) := by
    rw [bodies_migrateV2ToV3]
    exact hcha.migrate
  have hval : Migrated entries (migrateV2ToV3 out) := by
    refine ⟨?_, _, nodup_idsFrom hfresh, hcha'⟩
    rw [migrateV2ToV3, forall₂_map_right_iff]
    refine Pointwise.imp_mem hall fun entry hent entry' hass => ?_
    obtain ⟨before, after, rfl⟩ := append_of_mem hent
    refine migratedEntry_of_assigned hass hall fun htype index hidx => ?_
    obtain ⟨j, hj, rfl⟩ := hback before entry after rfl htype index hidx
    exact ⟨j, by rw [length_append, length_cons]; omega, rfl⟩
  rw [hmig]
  exact ⟨hval, validateSessionGraph_of_chained hcha' nonBlank_idsFrom (nodup_idsFrom hfresh),
    fun hhdr _ => migrateSessionEntries_of_migrated hval hhdr⟩

end Whole

/-! ### Small sessions -/

def uuidOf (digit : Char) (h : digit ∈ "0123456789abcdef".toList) : Uuid where
  text := List.replicate 36 digit
  length := by rw [length_replicate]; decide
  hex := fun _ hc => eq_of_mem_replicate (mem_of_mem_take hc) ▸ h

/-- Two different identifiers, one for the first entry and one for all others. -/
def twoIds : ℕ → Uuid
  | 0 => uuidOf 'a' (by decide)
  | _ + 1 => uuidOf 'b' (by decide)

def oldHeader : FileEntry := [("type", .str "session"), ("id", .str "sess-1")]

def oldMessage : FileEntry :=
  [("type", .str "message"), ("message", .obj [("role", .str "hookMessage"), ("content", .str "hi")])]

def oldCompaction (index : ℚ) : FileEntry :=
  [("type", .str "compaction"), ("summary", .str "s"), ("firstKeptEntryIndex", .num index)]

theorem refersBack_old {index : ℕ} (hidx : index < 2) : RefersBack 0 [oldHeader, oldMessage, oldCompaction index] := by
  intro before entry after heq htype k hk
  match before, heq with
  | [], heq =>
    rw [nil_append, cons_eq_cons] at heq
    rw [← heq.1] at htype
    exact absurd htype (by decide)
  | [_], heq =>
    rw [cons_append, nil_append, cons_eq_cons, cons_eq_cons] at heq
    rw [← heq.2.1] at htype
    exact absurd htype (by decide)
  | [_, _], heq =>
    simp only [cons_append, nil_append, cons_eq_cons] at heq
    rw [← heq.2.2.1] at hk
    have hlk : (oldCompaction index).lookup "firstKeptEntryIndex" = some (.num index) := rfl
    rw [hlk, Option.some.injEq, JsonValue.num.injEq] at hk
    exact ⟨index, hidx, hk.symm⟩
  | _ :: _ :: _ :: before, heq =>
    simp only [cons_append, cons_eq_cons] at heq
    exact absurd heq.2.2.2 (by simp)

theorem fresh_twoIds : Fresh twoIds 2 := by
  intro i j hlt hj
  obtain ⟨rfl, rfl⟩ : i = 0 ∧ j = 1 := by omega
  decide

/-- A session of a header, a message and a compaction is migrated. -/
theorem migrateSessionEntries_valid_old : Migrated [oldHeader, oldMessage, oldCompaction (1 : ℕ)]
      (migrateSessionEntries twoIds [oldHeader, oldMessage, oldCompaction (1 : ℕ)]) :=
  (migrateSessionEntries_valid twoIds [oldHeader, oldMessage, oldCompaction (1 : ℕ)] rfl
    (refersBack_old (by decide)) fresh_twoIds).1

/-- **The index of the header is not replaced by an id, and a list without a header is migrated
again.** -/
theorem migrateSessionEntries_not_exact : (versionOf [oldHeader, oldMessage, oldCompaction (0 : ℕ)] = some 1 ∧
      RefersBack 0 [oldHeader, oldMessage, oldCompaction (0 : ℕ)] ∧ Fresh twoIds 2 ∧
      oldHeader.lookup "id" = some (.str "sess-1") ∧
      ∃ entry, (migrateSessionEntries twoIds [oldHeader, oldMessage, oldCompaction (0 : ℕ)])[2]? = some entry ∧
        entry.lookup "firstKeptEntryIndex" = none ∧ entry.lookup "firstKeptEntryId" = none) ∧
    versionOf [oldMessage] = some 1 ∧ RefersBack 0 [oldMessage] ∧ Fresh twoIds 1 ∧
      migrateSessionEntries (fun n => twoIds (n + 1)) (migrateSessionEntries twoIds [oldMessage]) ≠
        migrateSessionEntries twoIds [oldMessage] := by
  refine ⟨⟨rfl, refersBack_old (by decide), fresh_twoIds, rfl, _, rfl, ?_, ?_⟩, rfl, ?_, ?_, ?_⟩
  · decide +kernel
  · decide +kernel
  · intro before entry after heq htype
    cases before with
    | nil =>
      rw [nil_append, cons_eq_cons] at heq
      rw [← heq.1] at htype
      exact absurd htype (by decide)
    | cons _ before =>
      rw [cons_append, cons_eq_cons] at heq
      exact absurd heq.2 (by simp)
  · intro i j hlt hj
    omega
  · decide +kernel

end SessionMigration
end EasyPi.CodingAgent
