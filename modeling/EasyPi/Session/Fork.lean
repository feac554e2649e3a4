/-
# Forks of an in-memory session

`createForkMutations` and `fork` of `packages/agent/src/harness/session/state.ts` and `memory.ts`:
what is copied becomes a list of mutations with the sequence numbers `1 … n`, which are applied to
an empty state. A tree fork copies all entries in their order, a branch fork the path to its
target; in both a parent comes before its children, so that every mutation is accepted.
-/
import EasyPi.Session.Queries

namespace EasyPi.Session

open List
namespace SessionState

variable {s s' : SessionState}

/-! ### The mutations of a fork -/

/-- `ForkOptions["position"]`. -/
inductive ForkPosition where
  | before | at_
  deriving DecidableEq, Repr

inductive ForkOptions where
  | tree
  | branch (entryId : Option String) (position : Option ForkPosition)
  deriving DecidableEq

/-- `targetId` of a branch fork: the selected message entry, or its parent. -/
def forkTarget (s : SessionState) (entryId : Option String) (position : Option ForkPosition) :
    Except SessionError (Option String) :=
  match entryId.elim (s.requireLane "main") fun id => .ok (some id) with
  | .error error => .error error
  | .ok none => .ok none
  | .ok (some selectedEntryId) =>
    let notMessage : SessionError := ⟨.invalidForkTarget, "Fork target is not a message entry: " ++ selectedEntryId⟩
    match s.getEntry selectedEntryId with
    | none => .error notMessage
    | some entry =>
      if entry.type ≠ .message then .error notMessage
      else match position.getD (if entryId = none then .at_ else .before) with
        | .at_ => .ok (some entry.id)
        | .before => .ok entry.parentId

/-- `copiedEntries` of a branch fork. -/
def entriesTo (s : SessionState) : Option String → Except SessionError (List Entry)
  | none => .ok []
  | some targetId => s.findEntriesOnBranch { order := .oldestFirst } {} targetId

/-- `copiedEntries` and `forkLanes`. -/
def forkSource (s : SessionState) :
    ForkOptions → Except SessionError (List Entry × List (String × Option String))
  | .tree => do
    let copiedEntries ← s.findEntries { order := .oldestFirst }
    return (copiedEntries, s.getLanes)
  | .branch entryId position => do
    let targetId ← s.forkTarget entryId position
    let copiedEntries ← s.entriesTo targetId
    return (copiedEntries, [("main", targetId)])

/-- `mutations.push({ …, seq: sequence++ })` for each of the mutations in turn. -/
def number : ℕ → List (ℕ → SessionMutation) → List SessionMutation
  | _, [] => []
  | sequence, mutation :: mutations => mutation sequence :: number (sequence + 1) mutations

def entryMutation (entry : Entry) (seq : ℕ) : SessionMutation := .entry none { entry with seq := seq }

def laneMutation (pointer : String × Option String) (seq : ℕ) : SessionMutation := .lane seq pointer.1 pointer.2

def labelMutation (labels : OrdMap String String) (entry : Entry) : Option (ℕ → SessionMutation) :=
  (labels.get? entry.id).map fun label seq => .label seq entry.id (some label)

/-- The loops of `createForkMutations`. -/
def forkMutations (s : SessionState) (copiedEntries : List Entry)
    (forkLanes : List (String × Option String)) : List SessionMutation :=
  number 1 <|
    copiedEntries.map entryMutation ++ (forkLanes.map laneMutation ++
      (s.name.toList.map (fun name seq => .name seq (some name)) ++ copiedEntries.filterMap (labelMutation s.labels)))

def createForkMutations (s : SessionState) (options : ForkOptions) :
    Except SessionError (List SessionMutation) := do
  let (copiedEntries, forkLanes) ← s.forkSource options
  return s.forkMutations copiedEntries forkLanes

/-- Mutations applied in turn, until one throws. -/
def replay (s : SessionState) : List SessionMutation → Except SessionError SessionState
  | [] => .ok s
  | mutation :: mutations =>
    match (applyMutation mutation).run s with
    | (.ok (), s') => replay s' mutations
    | (.error error, _) => .error error

/-- `fork` of the in-memory storage. -/
def fork (s : SessionState) (options : ForkOptions) : Except SessionError SessionState := do
  replay {} (← s.createForkMutations options)

/-! ### Replaying -/

theorem number_append (n : ℕ) (ms ms' : List (ℕ → SessionMutation)) :
    number n (ms ++ ms') = number n ms ++ number (n + ms.length) ms' := by
  induction ms generalizing n with
  | nil => rfl
  | cons m ms ih =>
    rw [cons_append, number, number, ih, length_cons, cons_append, Nat.add_right_comm, Nat.add_assoc]

theorem checkMutation_of_accepts {m : SessionMutation} (hseq : m.seq = s.sequence + 1)
    (h : s.Accepts m) : s.checkMutation m = none := by
  unfold checkMutation
  rw [if_neg (not_not.mpr hseq)]
  cases m with
  | entry lane entry =>
    obtain ⟨hid, hlane, hpar⟩ := h
    dsimp only
    rw [if_neg hid, Option.or_eq_none_iff]
    refine ⟨Option.bind_eq_none_iff.mpr fun l hl => ?_, Option.bind_eq_none_iff.mpr fun p hp => ?_⟩
    · rw [hlane l hl]
      exact if_neg (not_not.mpr rfl)
    · rw [if_pos (hpar p hp)]
  | record record =>
    dsimp only
    rw [h.1, Bool.not_true, if_neg Bool.false_ne_true, if_neg h.2]
  | lane _ _ leafId => exact Option.bind_eq_none_iff.mpr fun id hid => if_pos (h id hid)
  | name => rfl
  | label => exact if_pos h

theorem replay_cons {m : SessionMutation} (hm : s.checkMutation m = none) (ms : List SessionMutation) :
    replay s (m :: ms) = replay (s.commit m) ms := by
  rw [replay, applyMutation_run, hm]

theorem replay_append {ms : List SessionMutation} (h : replay s ms = .ok s')
    (ms' : List SessionMutation) : replay s (ms ++ ms') = replay s' ms' := by
  induction ms generalizing s with
  | nil =>
    cases h
    rfl
  | cons m ms ih =>
    rw [replay, applyMutation_run] at h
    cases hm : s.checkMutation m with
    | some message =>
      rw [hm] at h
      cases h
    | none =>
      rw [hm] at h
      rw [cons_append, replay_cons hm]
      exact ih h

theorem RepInv.replay (hs : s.RepInv) {ms : List SessionMutation}
    (h : SessionState.replay s ms = .ok s') : s'.RepInv := by
  induction ms generalizing s with
  | nil =>
    cases h
    exact hs
  | cons m ms ih =>
    rw [SessionState.replay, applyMutation_run] at h
    cases hm : s.checkMutation m with
    | some message =>
      rw [hm] at h
      cases h
    | none =>
      rw [hm] at h
      exact ih (hs.commit hm) h

/-! ### The entries -/

/-- The entries with the sequence numbers from 1 on. -/
def renumber (entries : List Entry) : List Entry := (entries.zipIdx 1).map fun p => { p.1 with seq := p.2 }

theorem renumber_append (entries : List Entry) (e : Entry) :
    renumber (entries ++ [e]) = renumber entries ++ [{ e with seq := entries.length + 1 }] := by
  rw [renumber, zipIdx_append, map_append, renumber, Nat.add_comm]
  rfl

theorem map_id_renumber (entries : List Entry) : (renumber entries).map (fun e => e.id) = entries.map fun e => e.id := by
  rw [renumber, map_map]
  conv_rhs => rw [← zipIdx_map_fst 1 entries]
  rw [map_map]
  rfl

structure EntriesCopied (copied : List Entry) (s : SessionState) : Prop where
  inv : s.RepInv
  sequence : s.sequence = copied.length
  entries : s.entries = renumber copied
  records : s.records = []
  lanes : s.lanes = .single "main" none
  name : s.name = none
  labels : s.labels = ∅

variable {copied : List Entry}

theorem EntriesCopied.has_iff (h : EntriesCopied copied s) {id : String} :
    s.entriesById.has id = true ↔ ∃ e ∈ copied, e.id = id := by
  have hmem : id ∈ s.entries.map (fun e => e.id) ↔ id ∈ copied.map fun e => e.id := by
    rw [h.entries, map_id_renumber]
  rw [h.inv.ids.has_iff]
  rwa [mem_map, mem_map] at hmem

theorem EntriesCopied.mem_usedIds (h : EntriesCopied copied s) {id : String}
    (hid : id ∈ s.usedIds) : ∃ e ∈ copied, e.id = id := by
  rw [h.inv.ids.usedIds, h.records, map_nil, append_nil, h.entries, map_id_renumber] at hid
  exact mem_map.mp hid

/-- **A forest is copied**: a parent is there before its children, and no id comes twice. -/
theorem replay_entries (h : Forest.WF (fun e : Entry => e.id) Entry.parentId Entry.seq copied) :
    ∃ s, replay {} (number 1 (copied.map entryMutation)) = .ok s ∧ EntriesCopied copied s := by
  induction copied using List.reverseRecOn with
  | nil => exact ⟨{}, rfl, repInv_empty, rfl, rfl, rfl, rfl, rfl, rfl⟩
  | append_singleton copied e ih =>
    obtain ⟨hwf, hids, hpare⟩ := h.of_append
    obtain ⟨s, hrpl, hs⟩ := ih hwf
    have hchk : s.checkMutation (entryMutation e (s.sequence + 1)) = none := by
      refine checkMutation_of_accepts rfl ⟨fun hid => ?_, fun l hl => (by cases hl), fun p hp => ?_⟩
      · obtain ⟨e', he', heq⟩ := hs.mem_usedIds hid
        exact hids e' he' heq
      · exact hs.has_iff.mpr (hpare p hp)
    refine ⟨s.commit (entryMutation e (s.sequence + 1)), ?_, hs.inv.commit hchk, ?_, ?_, hs.records,
      hs.lanes, hs.name, hs.labels⟩
    · rw [map_append, number_append, replay_append hrpl, length_map, Nat.add_comm, ← hs.sequence]
      exact replay_cons hchk []
    · rw [commit_sequence, length_append, ← hs.sequence]
      rfl
    · rw [renumber_append, ← hs.sequence, ← hs.entries]
      rfl

/-! ### Lanes, name and labels -/

/-- The entries and records are the same. -/
structure SameItems (s s' : SessionState) : Prop where
  entries : s'.entries = s.entries
  entriesById : s'.entriesById = s.entriesById
  records : s'.records = s.records

theorem SameItems.trans {s'' : SessionState} (h : SameItems s s') (h' : SameItems s' s'') : SameItems s s'' :=
  ⟨h'.entries.trans h.entries, h'.entriesById.trans h.entriesById, h'.records.trans h.records⟩

def setLanes (lanes : OrdMap String (Option String)) (pointers : List (String × Option String)) :
    OrdMap String (Option String) :=
  pointers.foldl (fun lanes pointer => lanes.set pointer.1 pointer.2) lanes

theorem replay_lanes (pointers : List (String × Option String))
    (h : ∀ pointer ∈ pointers, ∀ id, pointer.2 = some id → s.entriesById.has id = true) :
    ∃ s', replay s (number (s.sequence + 1) (pointers.map laneMutation)) = .ok s' ∧
      SameItems s s' ∧ s'.sequence = s.sequence + pointers.length ∧ s'.lanes = setLanes s.lanes pointers ∧
      s'.name = s.name ∧ s'.labels = s.labels := by
  induction pointers generalizing s with
  | nil => exact ⟨s, rfl, ⟨rfl, rfl, rfl⟩, rfl, rfl, rfl, rfl⟩
  | cons pointer pointers ih =>
    have hchk : s.checkMutation (laneMutation pointer (s.sequence + 1)) = none :=
      checkMutation_of_accepts rfl (h pointer mem_cons_self)
    obtain ⟨s', hrpl, hsame, hsequ, hlan, hname, hlab⟩ :=
      @ih (s.commit (laneMutation pointer (s.sequence + 1)))
        fun p hp => h p (mem_cons_of_mem _ hp)
    refine ⟨s', ?_, ⟨hsame.entries, hsame.entriesById, hsame.records⟩, ?_, hlan, hname, hlab⟩
    · rw [map_cons, number, replay_cons hchk]
      exact hrpl
    · rw [hsequ, commit_sequence, length_cons, Nat.add_comm pointers.length, ← Nat.add_assoc]
      rfl

theorem replay_name (name : Option String) (hname : s.name = none) :
    ∃ s', replay s (number (s.sequence + 1) (name.toList.map fun name seq => .name seq (some name))) = .ok s' ∧
      SameItems s s' ∧ s'.sequence = s.sequence + name.toList.length ∧ s'.lanes = s.lanes ∧
      s'.name = name ∧ s'.labels = s.labels := by
  cases name with
  | none => exact ⟨s, rfl, ⟨rfl, rfl, rfl⟩, rfl, rfl, hname, rfl⟩
  | some name =>
    have hchk : s.checkMutation (.name (s.sequence + 1) (some name)) = none := checkMutation_of_accepts rfl trivial
    exact ⟨_, replay_cons hchk [], ⟨rfl, rfl, rfl⟩, rfl, rfl, rfl, rfl⟩

theorem replay_labels (labels : OrdMap String String) (copied : List Entry)
    (h : ∀ e ∈ copied, s.entriesById.has e.id = true) :
    ∃ s', replay s (number (s.sequence + 1) (copied.filterMap (labelMutation labels))) = .ok s' ∧
      SameItems s s' ∧ s'.lanes = s.lanes ∧ s'.name = s.name ∧ ∀ id, s'.labels.get? id =
        (if id ∈ copied.map (fun e => e.id) then labels.get? id else none).or (s.labels.get? id) := by
  induction copied generalizing s with
  | nil => exact ⟨s, rfl, ⟨rfl, rfl, rfl⟩, rfl, rfl, fun id => rfl⟩
  | cons e copied ih =>
    have htail : ∀ e ∈ copied, s.entriesById.has e.id = true := fun e' he' =>
      h e' (mem_cons_of_mem _ he')
    cases hlabe : labels.get? e.id with
    | none =>
      have hskip : labelMutation labels e = none := by rw [labelMutation, hlabe, Option.map_none]
      obtain ⟨s', hrpl, hsame, hlan, hname, hlab⟩ := ih htail
      refine ⟨s', ?_, hsame, hlan, hname, fun id => ?_⟩
      · rw [filterMap_cons_none hskip]
        exact hrpl
      · rw [hlab id, map_cons]
        by_cases hid : id = e.id
        · subst hid
          rw [if_pos mem_cons_self, hlabe, ite_self]
        · have hiff : id ∈ e.id :: copied.map (fun e => e.id) ↔ id ∈ copied.map fun e => e.id := by
            rw [mem_cons, or_iff_right hid]
          rw [if_congr hiff rfl rfl]
    | some label =>
      have hpush : labelMutation labels e = some fun seq => .label seq e.id (some label) := by
        rw [labelMutation, hlabe, Option.map_some]
      have hchk : s.checkMutation (.label (s.sequence + 1) e.id (some label)) = none :=
        checkMutation_of_accepts rfl (h e mem_cons_self)
      obtain ⟨s', hrpl, hsame, hlan, hname, hlab⟩ := @ih (s.commit (.label (s.sequence + 1) e.id (some label))) htail
      refine ⟨s', ?_, ⟨hsame.entries, hsame.entriesById, hsame.records⟩, hlan, hname, fun id => ?_⟩
      · rw [filterMap_cons_some hpush, number, replay_cons hchk]
        exact hrpl
      · have hset : (s.commit (.label (s.sequence + 1) e.id (some label))).labels.get? id =
            if id = e.id then some label else s.labels.get? id := OrdMap.get?_set ..
        rw [hlab id, hset, map_cons]
        by_cases hid : id = e.id
        · subst hid
          rw [if_pos mem_cons_self, if_pos rfl, hlabe, Option.some_or]
          split <;> rfl
        · have hiff : id ∈ e.id :: copied.map (fun e => e.id) ↔ id ∈ copied.map fun e => e.id := by
            rw [mem_cons, or_iff_right hid]
          rw [if_congr hiff rfl rfl, if_neg hid]

/-! ### What is copied -/

/-- The lane `main` is the first one. -/
def MainFirst (s : SessionState) : Prop := s.lanes.keys.head? = some "main"

theorem mainFirst_set {lanes : OrdMap String (Option String)} (h : lanes.keys.head? = some "main")
    (lane : String) (leafId : Option String) : (lanes.set lane leafId).keys.head? = some "main" := by
  have hkeys : (lanes.set lane leafId).keys =
      if lane ∈ lanes.keys then lanes.keys else lanes.keys ++ [lane] := OrdMap.keys_setList ..
  rw [hkeys]
  split
  · exact h
  · rw [List.head?_append, h, Option.some_or]

theorem MainFirst.commit (h : s.MainFirst) (m : SessionMutation) : (s.commit m).MainFirst := by
  cases m with
  | entry lane entry =>
    cases lane with
    | none => exact h
    | some lane => exact mainFirst_set h lane _
  | lane seq lane leafId => exact mainFirst_set h lane leafId
  | record => exact h
  | name => exact h
  | label => exact h

theorem MainFirst.applyMutations (h : s.MainFirst)
    (calls : List (SessionMutation × (String → SessionError))) : (s.applyMutations calls).MainFirst := by
  induction calls generalizing s with
  | nil => exact h
  | cons call calls ih =>
    refine ih ?_
    dsimp only
    rw [applyMutation_run]
    cases s.checkMutation call.1 with
    | some message => exact h
    | none => exact h.commit call.1

theorem MainFirst.setLanes (h : s.MainFirst) : setLanes (.single "main" none) s.lanes.toList = s.lanes := by
  rcases hlan : s.lanes with ⟨_ | ⟨pointer, pointers⟩, hnd⟩
  · rw [MainFirst, hlan] at h
    cases h
  · obtain ⟨lane, leafId⟩ := pointer
    obtain rfl : lane = "main" := by
      rw [MainFirst, hlan] at h
      exact Option.some.inj h
    refine OrdMap.toList_injective ?_
    exact @OrdMap.toList_foldl_set _ _ _ pointers (.single "main" leafId) hnd

/-- The entries and the lanes that a fork copies. -/
def Copies (s : SessionState) (copied : List Entry) (lanes : OrdMap String (Option String)) :
    ForkOptions → Prop
  | .tree => copied = s.entries ∧ lanes = s.lanes
  | .branch entryId position => ∃ target, s.forkTarget entryId position = .ok target ∧ lanes = .single "main" target ∧
      match target with
      | none => copied = []
      | some id => ∃ e, e.id = id ∧ IsBranch s.entries e copied

structure Forked (s : SessionState) (copied : List Entry) (lanes : OrdMap String (Option String))
    (fork : SessionState) : Prop where
  entries : fork.entries = renumber copied
  lanes : fork.lanes = lanes
  name : fork.getName = s.getName
  labels : ∀ id, fork.getLabel id = if id ∈ copied.map (fun e => e.id) then s.getLabel id else none
  records : fork.records = []
  openOperations : ∀ lane, fork.findOpenOperations lane = .ok []

theorem replay_forkMutations {pointers : List (String × Option String)}
    (hwf : Forest.WF (fun e : Entry => e.id) Entry.parentId Entry.seq copied)
    (hleaf : ∀ pointer ∈ pointers, ∀ id, pointer.2 = some id → ∃ e ∈ copied, e.id = id) :
    ∃ fork, replay {} (s.forkMutations copied pointers) = .ok fork ∧ Forked s copied
      (setLanes (.single "main" none) pointers) fork := by
  obtain ⟨s₁, hreplay₁, hcop⟩ := replay_entries hwf
  obtain ⟨s₂, hreplay₂, hsame₂, hsequence₂, hlanes₂, hname₂, hlabels₂⟩ := @replay_lanes s₁ pointers
    fun pointer hpoi id hid => hcop.has_iff.mpr (hleaf pointer hpoi id hid)
  obtain ⟨s₃, hreplay₃, hsame₃, hsequence₃, hlanes₃, hname₃, hlabels₃⟩ := @replay_name s₂ s.name (hname₂.trans hcop.name)
  have hsame := hsame₂.trans hsame₃
  obtain ⟨s₄, hreplay₄, hsame₄, hlanes₄, hname₄, hlabels₄⟩ := @replay_labels s₃ s.labels copied
    fun e he => by rw [hsame.entriesById]; exact hcop.has_iff.mpr ⟨e, he, rfl⟩
  have hrpl : replay {} (s.forkMutations copied pointers) = .ok s₄ := by
    rw [forkMutations, number_append, replay_append hreplay₁, length_map, Nat.add_comm 1,
      ← hcop.sequence, number_append, replay_append hreplay₂, length_map,
      Nat.add_right_comm, ← hsequence₂, number_append, replay_append hreplay₃, length_map,
      Nat.add_right_comm, ← hsequence₃]
    exact hreplay₄
  have hall := hsame.trans hsame₄
  have hrecs : s₄.records = [] := hall.records.trans hcop.records
  refine ⟨s₄, hrpl, hall.entries.trans hcop.entries, ?_, ?_, fun id => ?_, hrecs, fun lane => ?_⟩
  · rw [hlanes₄, hlanes₃, hlanes₂, hcop.lanes]
  · exact hname₄.trans hname₃
  · have hemp : s₃.labels = ∅ := hlabels₃.trans (hlabels₂.trans hcop.labels)
    rw [getLabel, hlabels₄ id, hemp, OrdMap.get?_empty, Option.or_none]
    rfl
  · rw [(repInv_empty.replay hrpl).findOpenOperations lane, hrecs]
    rfl

theorem findEntries_oldestFirst (s : SessionState) : s.findEntries { order := .oldestFirst } = .ok s.entries := by
  rw [findEntries_eq s (fun n h => by cases h) (fun n h => by cases h)]
  rw [takeLimit, ordered, filter_eq_self.mpr fun e _ => by simp [matchesEntryQuery]]

theorem RepInv.entriesTo_path (h : s.RepInv) {e : Entry} {path : List Entry} (hpath : IsBranch s.entries e path) :
    s.entriesTo (some e.id) = .ok path := by
  rw [entriesTo, findEntriesOnBranch_eq h (fun n h => by cases h) (fun n h => by cases h) {} hpath]
  rw [takeLimit, ordered, reachedBound_empty, takeUntil_of_forall_not (by simp),
    filter_eq_self.mpr fun e _ => by simp [matchesEntryQuery]]

theorem createForkMutations_branch {entryId : Option String} {position : Option ForkPosition}
    {target : Option String} (htgt : s.forkTarget entryId position = .ok target)
    (hcop : s.entriesTo target = .ok copied) :
    s.createForkMutations (.branch entryId position) = .ok (s.forkMutations copied [("main", target)]) := by
  simp only [createForkMutations, forkSource, htgt]
  change (s.entriesTo target >>= fun copied => pure (copied, [("main", target)])) >>= _ = _
  rw [hcop]
  rfl

/-- **What a branch fork goes back to**: the selected message (the leaf of `main` unless one is named) or its parent. Nothing
but an entry that is missing or no message is refused. -/
theorem RepInv.forkTarget_spec (h : s.RepInv) (hmain : s.MainFirst) (entryId : Option String)
    (position : Option ForkPosition) : ∃ selected, entryId.elim (s.lanes.get? "main") (some ∘ some) = some selected ∧
      ((selected = none ∧ s.forkTarget entryId position = .ok none) ∨
      (∃ e ∈ s.entries, selected = some e.id ∧ e.type = .message ∧ s.forkTarget entryId position =
        .ok (if position.getD (if entryId = none then .at_ else .before) = .at_ then some e.id else e.parentId)) ∨
      (∀ e ∈ s.entries, selected = some e.id → e.type ≠ .message) ∧
        ∃ error, s.forkTarget entryId position = .error error ∧ error.code = .invalidForkTarget) := by
  obtain ⟨selected, hsel, hget⟩ : ∃ selected, entryId.elim (s.requireLane "main") (fun id => .ok (some id)) = .ok selected ∧
      entryId.elim (s.lanes.get? "main") (some ∘ some) = some selected := by
    cases entryId with
    | some id => exact ⟨some id, rfl, rfl⟩
    | none =>
      have hhas : s.lanes.has "main" = true := (OrdMap.has_iff_mem_keys _ _).mpr (mem_of_head? hmain)
      obtain ⟨leafId, hleaf⟩ := (OrdMap.has_iff _ _).mp hhas
      exact ⟨leafId, by rw [Option.elim_none, requireLane, hleaf], hleaf⟩
  refine ⟨selected, hget, ?_⟩
  unfold forkTarget
  rw [hsel]
  cases selected with
  | none => exact .inl ⟨rfl, rfl⟩
  | some selectedEntryId =>
    dsimp only
    cases hent : s.getEntry selectedEntryId with
    | none =>
      refine .inr (.inr ⟨fun e he heq => ?_, _, rfl, rfl⟩)
      rw [Option.some.inj heq, getEntry, h.ids.get?_eq_some.mpr ⟨he, rfl⟩] at hent
      cases hent
    | some entry =>
      obtain ⟨hmem, hid⟩ := h.ids.get?_eq_some.mp hent
      dsimp only
      split
      · rename_i htype
        refine .inr (.inr ⟨fun e he heq => ?_, _, rfl, rfl⟩)
        rw [Option.some.inj heq, getEntry, h.ids.get?_eq_some.mpr ⟨he, rfl⟩] at hent
        rwa [Option.some.inj hent]
      · rename_i htype
        refine .inr (.inl ⟨entry, hmem, by rw [hid], by simpa using htype, ?_⟩)
        cases position.getD (if entryId = none then .at_ else .before) <;> rfl

theorem RepInv.forkTarget_cases (h : s.RepInv) (hmain : s.MainFirst) (entryId : Option String)
    (position : Option ForkPosition) :
    (∃ error, s.forkTarget entryId position = .error error ∧ error.code = .invalidForkTarget) ∨
      ∃ target, s.forkTarget entryId position = .ok target ∧ ∀ id, target = some id → ∃ e ∈ s.entries, e.id = id := by
  obtain ⟨-, -, ⟨-, htgt⟩ | ⟨e, hmem, -, -, htgt⟩ | ⟨-, herr⟩⟩ := h.forkTarget_spec hmain entryId position
  · exact .inr ⟨none, htgt, nofun⟩
  · refine .inr ⟨_, htgt, fun id hid => ?_⟩
    by_cases hat : position.getD (if entryId = none then .at_ else .before) = .at_
    · exact ⟨e, hmem, Option.some.inj ((if_pos hat).symm.trans hid)⟩
    · rw [if_neg hat] at hid
      obtain ⟨parent, hpar, heq, -⟩ := h.tree.parent e hmem id hid
      exact ⟨parent, hpar, heq⟩
  · exact .inl herr

/-- **A fork of a reachable session is a session of its own**: only a target that is no message
entry is refused; the mutations are accepted on an empty state, and copy the tree or the path to the
target, the lanes, the name and the labels of the copied entries. -/
theorem fork_faithful (calls : List (SessionMutation × (String → SessionError))) (options : ForkOptions) :
    let s := ({} : SessionState).applyMutations calls
    match s.createForkMutations options with
    | .error error => error.code = .invalidForkTarget
    | .ok mutations => ∃ copied lanes fork, s.Copies copied lanes options ∧
        replay {} mutations = .ok fork ∧ Forked s copied lanes fork := by
  intro s
  have hs : s.RepInv := repInv_empty.applyMutations calls
  have hemp : MainFirst {} := rfl
  have hmain : s.MainFirst := hemp.applyMutations calls
  cases options with
  | tree =>
    have hsrc : s.createForkMutations .tree = .ok (s.forkMutations s.entries s.lanes.toList) := by
      unfold createForkMutations forkSource
      rw [findEntries_oldestFirst]
      rfl
    rw [hsrc]
    obtain ⟨fork, hrpl, hfor⟩ := @replay_forkMutations s s.entries s.lanes.toList hs.forest
      fun pointer hpoi id hid => by
        refine hs.tree.leaf pointer.1 id ((OrdMap.get?_eq_some_iff _ _ _).mpr ?_)
        rw [← hid]
        exact hpoi
    rw [hmain.setLanes] at hfor
    exact ⟨s.entries, s.lanes, fork, ⟨rfl, rfl⟩, hrpl, hfor⟩
  | branch entryId position =>
    rcases hs.forkTarget_cases hmain entryId position with ⟨error, herr, hcode⟩ | ⟨target, htgt, hent⟩
    · have hsrc : s.createForkMutations (.branch entryId position) = .error error := by
        simp only [createForkMutations, forkSource, herr]
        rfl
      rw [hsrc]
      exact hcode
    · cases target with
      | none =>
        rw [createForkMutations_branch htgt rfl]
        obtain ⟨fork, hrpl, hfor⟩ := @replay_forkMutations s [] [("main", none)]
          ⟨nodup_nil, List.Pairwise.nil, fun a ha => by cases ha⟩
          fun pointer hpoi id hid => by
            rw [mem_singleton.mp hpoi] at hid
            cases hid
        exact ⟨[], .single "main" none, fork, ⟨none, htgt, rfl, rfl⟩, hrpl, hfor⟩
      | some id =>
        obtain ⟨e, he, rfl⟩ := hent id rfl
        obtain ⟨path, hpath⟩ := hs.forest.exists_path he
        rw [createForkMutations_branch htgt (hs.entriesTo_path hpath)]
        obtain ⟨fork, hrpl, hfor⟩ := @replay_forkMutations s path [("main", some e.id)]
          (hpath.wf hs.forest) fun pointer hpoi id hid => by
            rw [mem_singleton.mp hpoi] at hid
            exact ⟨e, hpath.self_mem, Option.some.inj hid⟩
        exact ⟨path, .single "main" (some e.id), fork, ⟨some e.id, htgt, rfl, e, rfl, hpath⟩, hrpl, hfor⟩

end SessionState
end EasyPi.Session
