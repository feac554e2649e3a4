/-
# JSON objects

What the source does with plain objects: it reads a property, tests the shape
of a value, spreads one object over another and removes a property. An object
is its list of members, so each of these is a function on that list; a
property set twice keeps its first place. The members stand in the order the
object lists them. (An engine lists integer-like names first; in the model
such a name stays where it was put, which no modelled code can tell.)
-/
import EasyPi.Ai.Types
import EasyPi.Lib.OrdMap

namespace EasyPi

open List

abbrev Fields := List (String × JsonValue)

namespace JsonValue

/-! ### Shapes and properties -/

/-- `typeof value === "object" && value !== null && !Array.isArray(value)`. -/
def isObject : JsonValue → Bool
  | .obj _ => true
  | _ => false

def isString : JsonValue → Bool
  | .str _ => true
  | _ => false

def isNumber : JsonValue → Bool
  | .num _ => true
  | _ => false

def isBoolean : JsonValue → Bool
  | .bool _ => true
  | _ => false

/-- `Array.isArray(value)`. -/
def isArray : JsonValue → Bool
  | .arr _ => true
  | _ => false

variable (value : JsonValue)

/-- `value[key]`, `undefined` as `none`. -/
def field? (key : String) : Option JsonValue :=
  match value with
  | .obj fields => fields.lookup key
  | _ => none

def hasField (key : String) (shape : JsonValue → Bool) : Bool := (value.field? key).any shape

/-- An optional field: absent, or of the given shape. -/
def optionalField (key : String) (shape : JsonValue → Bool) : Bool := (value.field? key).all shape

theorem isObject_iff {value : JsonValue} : value.isObject = true ↔ ∃ fields, value = .obj fields := by
  cases value <;> simp [isObject]

@[simp] theorem field?_obj (fields : Fields) (key : String) :
    (JsonValue.obj fields).field? key = fields.lookup key := rfl

@[elab_as_elim]
theorem induct {P : JsonValue → Prop} (null : P .null) (bool : ∀ b, P (.bool b))
    (num : ∀ n, P (.num n)) (str : ∀ s, P (.str s)) (arr : ∀ xs : List JsonValue, (∀ x ∈ xs, P x) → P (.arr xs))
    (obj : ∀ fields : Fields, (∀ p ∈ fields, P p.2) → P (.obj fields)) (value : JsonValue) : P value :=
  @JsonValue.rec P (fun xs => ∀ x ∈ xs, P x) (fun fields => ∀ p ∈ fields, P p.2) (fun p => P p.2)
    null bool num str arr obj (by simp) (fun _ _ hx hxs => forall_mem_cons.mpr ⟨hx, hxs⟩)
    (by simp) (fun _ _ hp hfds => forall_mem_cons.mpr ⟨hp, hfds⟩) (fun _ _ hx => hx) value

mutual
/-- The objects in the value have each property once. -/
def WellFormed : JsonValue → Prop
  | .arr xs => WellFormedList xs
  | .obj fields => (fields.map Prod.fst).Nodup ∧ WellFormedFields fields
  | .null | .bool _ | .num _ | .str _ => True
/-- The elements of an array are well-formed. -/
def WellFormedList : List JsonValue → Prop
  | [] => True
  | x :: xs => x.WellFormed ∧ WellFormedList xs
/-- The values of an object's members are well-formed. -/
def WellFormedFields : List (String × JsonValue) → Prop
  | [] => True
  | (_, x) :: fields => x.WellFormed ∧ WellFormedFields fields
end

theorem wellFormedList_iff {xs : List JsonValue} : WellFormedList xs ↔ ∀ x ∈ xs, x.WellFormed := by
  induction xs with
  | nil => simp [WellFormedList]
  | cons x xs ih => simp [WellFormedList, ih]

theorem wellFormedFields_iff {fields : Fields} : WellFormedFields fields ↔ ∀ p ∈ fields, p.2.WellFormed := by
  induction fields with
  | nil => simp [WellFormedFields]
  | cons p fields ih => simp [WellFormedFields, ih]

theorem wellFormed_obj {fields : Fields} :
    (JsonValue.obj fields).WellFormed ↔ (fields.map Prod.fst).Nodup ∧ ∀ p ∈ fields, p.2.WellFormed := by
  rw [WellFormed, wellFormedFields_iff]

end JsonValue

/-! ### Spread and removal -/

section Members

variable {ν : Type}

/-- `{ ...base, ...members }`. -/
def assign (base members : List (String × ν)) : List (String × ν) :=
  members.foldl (fun fields p => OrdMap.setList fields p.1 p.2) base

/-- The object without the properties `keys`. -/
def without (fields : List (String × ν)) (keys : List String) : List (String × ν) := fields.filter fun p => p.1 ∉ keys

variable {base members : List (String × ν)} {key : String}

theorem lookup_assign_of_notMem
    (h : key ∉ members.map Prod.fst) : (assign base members).lookup key = base.lookup key := by
  induction members generalizing base with
  | nil => rfl
  | cons p members ih =>
    simp only [map_cons, mem_cons, not_or] at h
    rw [assign, foldl_cons, ← assign, ih h.2, OrdMap.lookup_setList, if_neg h.1]

theorem lookup_assign_of_mem {value : ν} (hnd : (members.map Prod.fst).Nodup) (h : (key, value) ∈ members) :
    (assign base members).lookup key = some value := by
  induction members generalizing base with
  | nil => cases h
  | cons p members ih =>
    obtain ⟨hp, hnd⟩ := nodup_cons.mp hnd
    rw [assign, foldl_cons, ← assign]
    rcases mem_cons.mp h with rfl | h
    · rw [lookup_assign_of_notMem hp, OrdMap.lookup_setList, if_pos rfl]
    · exact ih hnd h

theorem mem_keys_assign :
    key ∈ (assign base members).map Prod.fst ↔ key ∈ base.map Prod.fst ∨ key ∈ members.map Prod.fst := by
  induction members generalizing base with
  | nil => simp [assign]
  | cons p members ih =>
    rw [assign, foldl_cons, ← assign, ih, OrdMap.keys_setList, map_cons, mem_cons]
    split_ifs with hp
    · constructor
      · rintro (h | h)
        · exact .inl h
        · exact .inr (.inr h)
      · rintro (h | rfl | h)
        · exact .inl h
        · exact .inl hp
        · exact .inr h
    · rw [mem_append, mem_singleton, or_assoc]

theorem nodup_keys_assign {base : List (String × ν)} (members : List (String × ν))
    (h : (base.map Prod.fst).Nodup) : ((assign base members).map Prod.fst).Nodup := by
  induction members generalizing base with
  | nil => exact h
  | cons p members ih => exact ih (OrdMap.nodup_setList h p.1 p.2)

theorem mem_of_mem_assign {p : String × ν} (h : p ∈ assign base members) : p ∈ base ∨ p ∈ members := by
  induction members generalizing base with
  | nil => exact .inl h
  | cons q members ih =>
    rw [assign, foldl_cons, ← assign] at h
    rcases ih h with h | h
    · rw [OrdMap.setList] at h
      split_ifs at h with hq
      · obtain ⟨r, hr, rfl⟩ := mem_map.mp h
        split_ifs
        · exact .inr mem_cons_self
        · exact .inl hr
      · rcases mem_append.mp h with h | h
        · exact .inl h
        · exact .inr (mem_singleton.mp h ▸ mem_cons_self)
    · exact .inr (mem_cons_of_mem _ h)

theorem assign_of_disjoint (hnd : (members.map Prod.fst).Nodup)
    (hdisj : ∀ key ∈ members.map Prod.fst, key ∉ base.map Prod.fst) : assign base members = base ++ members := by
  induction members generalizing base with
  | nil => simp [assign]
  | cons p members ih =>
    obtain ⟨a, b⟩ := p
    simp only [map_cons, nodup_cons, mem_cons, forall_eq_or_imp] at hnd hdisj
    have hset : OrdMap.setList base a b = base ++ [(a, b)] := if_neg hdisj.1
    rw [assign, foldl_cons, ← assign]
    simp only [hset]
    rw [ih hnd.2, append_assoc, singleton_append]
    intro key hkey hmem
    simp only [map_append, map_cons, map_nil, mem_append, mem_singleton] at hmem
    rcases hmem with hmem | rfl
    · exact hdisj.2 key hkey hmem
    · exact hnd.1 hkey

theorem assign_of_mem (hnd : (base.map Prod.fst).Nodup)
    (h : ∀ p ∈ members, base.lookup p.1 = some p.2) : assign base members = base := by
  induction members with
  | nil => rfl
  | cons p members ih =>
    rw [forall_mem_cons] at h
    have hmem := OrdMap.mem_of_lookup h.1
    have hset : OrdMap.setList base p.1 p.2 = base := by
      rw [OrdMap.setList, if_pos (mem_map.mpr ⟨_, hmem, rfl⟩)]
      refine (map_congr_left fun q hq => ?_).trans (map_id base)
      split_ifs with heq
      · have := OrdMap.lookup_of_mem hnd (show (q.1, q.2) ∈ base from hq)
        rw [heq, h.1] at this
        exact Prod.ext heq.symm (Option.some.inj this)
      · rfl
    rw [assign, foldl_cons, ← assign, hset, ih h.2]

theorem lookup_without {fields : List (String × ν)} {keys : List String} :
    (without fields keys).lookup key = if key ∈ keys then none else fields.lookup key := by
  induction fields with
  | nil => simp [without]
  | cons p fields ih =>
    obtain ⟨a, b⟩ := p
    rw [without] at ih ⊢
    by_cases ha : a ∈ keys
    · rw [filter_cons_of_neg (by simpa using ha), ih]
      by_cases hk : key = a
      · simp [hk, ha]
      · have hb : (key == a) = false := by simpa using hk
        simp [List.lookup_cons, hb]
    · rw [filter_cons_of_pos (by simpa using ha)]
      by_cases hk : key = a
      · simp [hk, ha]
      · have hb : (key == a) = false := by simpa using hk
        simp only [List.lookup_cons, hb, ih]

end Members

end EasyPi
