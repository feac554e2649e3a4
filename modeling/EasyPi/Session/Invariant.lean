/-
# The representation invariant of the session state

The log determines everything else: entries, records, open operations, labels,
name and message count are functions of it, and the maps are indexes into it.
The invariant is stated in four groups, one per part of the state, each with
its own step lemma:

* `LogInv`: the log has the sequence numbers `1 … n`, entries and records are its parts
* `IdInv`: ids occur once, `usedIds` and `entriesById` index them
* `TreeInv`: parents and lane leaves are present, parents are older
* `OpenInv`, `FactInv`: open operations, labels, name and message count
-/
import Mathlib.Data.List.Perm.Subperm
import EasyPi.Session.State

namespace EasyPi.Session

open List

/-- `record` finishes the operation `runId` of `lane`. -/
def LaneRecord.finishes (record : LaneRecord) (lane runId : String) : Prop :=
  record.lane = lane ∧ record.data.type = .operationFinished ∧ record.data.runId? = some runId

instance (record : LaneRecord) (lane runId : String) : Decidable (record.finishes lane runId) :=
  inferInstanceAs (Decidable (_ ∧ _ ∧ _))

/-- The operations started in a lane that no later record of the lane finishes, oldest first. -/
def openOperations (records : List LaneRecord) (lane : String) : List OperationStartedRecord :=
  (records.filterMap LaneRecord.operationStarted?).filter fun op =>
    op.lane = lane ∧ ∀ record ∈ records, record.finishes lane op.id → record.seq ≤ op.seq

def LogItem.name? : LogItem → Option (Option String)
  | .name _ value => some value
  | _ => none

def LogItem.label? (targetId : String) : LogItem → Option (Option String)
  | .label _ id value => if id = targetId then some value else none
  | _ => none

def lastName (log : List LogItem) : Option String := ((log.filterMap LogItem.name?).getLast?).join

/-- The label the last label fact about an entry gives. -/
def lastLabel (log : List LogItem) (targetId : String) : Option String :=
  ((log.filterMap (LogItem.label? targetId)).getLast?).join

namespace SessionState

/-! ### Which mutations are accepted -/

/-- What `applyMutation` requires of a mutation, beyond its sequence number. -/
def Accepts (s : SessionState) : SessionMutation → Prop
  | .entry lane entry =>
    entry.id ∉ s.usedIds ∧ (∀ l, lane = some l → s.lanes.get? l = some entry.parentId) ∧
      ∀ p, entry.parentId = some p → s.entriesById.has p = true
  | .record record => s.lanes.has record.lane = true ∧ record.id ∉ s.usedIds
  | .lane _ _ leafId => ∀ id, leafId = some id → s.entriesById.has id = true
  | .name .. => True
  | .label _ targetId _ => s.entriesById.has targetId = true

variable {s : SessionState} {m : SessionMutation} {id : String} {op : OperationStartedRecord}

theorem checkMutation_eq_none (h : s.checkMutation m = none) : m.seq = s.sequence + 1 ∧ s.Accepts m := by
  unfold checkMutation at h
  split_ifs at h with hseq
  refine ⟨not_not.mp hseq, ?_⟩
  cases m with
  | entry lane entry =>
    simp only at h
    split_ifs at h with hid
    rw [Option.or_eq_none_iff, Option.bind_eq_none_iff, Option.bind_eq_none_iff] at h
    refine ⟨hid, fun l hl => ?_, fun p hp => ?_⟩
    · have := h.1 l hl
      cases hg : s.lanes.get? l with
      | none => simp [hg] at this
      | some leafId =>
        simp only [hg] at this
        split_ifs at this with hne
        rw [not_not.mp hne]
    · have := h.2 p hp
      split_ifs at this with hhas
      exact hhas
  | record record =>
    simp only at h
    split_ifs at h with hlane hid
    exact ⟨by simpa using hlane, hid⟩
  | lane seq lane leafId =>
    intro id hid
    have := Option.bind_eq_none_iff.mp h id hid
    split_ifs at this with hhas
    exact hhas
  | name => trivial
  | label seq targetId label =>
    simp only at h
    split_ifs at h with hhas
    exact hhas

/-! ### The log -/

/-- The log has consecutive sequence numbers; entries and records are its parts. -/
structure LogInv (s : SessionState) : Prop where
  seqs : s.log.map LogItem.seq = List.range' 1 s.sequence
  entries : s.entries = s.log.filterMap LogItem.entryOf?
  records : s.records = s.log.filterMap LogItem.record?
  entry_seq : ∀ seq e, LogItem.entry seq e ∈ s.log → e.seq = seq
  record_seq : ∀ seq r, LogItem.record seq r ∈ s.log → r.seq = seq

def logItem : SessionMutation → LogItem
  | .entry _ e => .entry e.seq e
  | .record r => .record r.seq r
  | .lane seq lane leafId => .lane seq lane leafId
  | .name seq name => .name seq name
  | .label seq targetId label => .label seq targetId label

theorem logItem_seq (m : SessionMutation) : (logItem m).seq = m.seq := by
  cases m <;> rfl

theorem commit_log (s : SessionState) (m : SessionMutation) : (s.commit m).log = s.log ++ [logItem m] := by
  cases m <;> rfl

theorem commit_sequence (s : SessionState) (m : SessionMutation) : (s.commit m).sequence = m.seq := by
  cases m <;> rfl

theorem commit_entries (s : SessionState) (m : SessionMutation) :
    (s.commit m).entries = s.entries ++ (logItem m).entryOf?.toList := by
  cases m <;> simp [commit, logItem, LogItem.entryOf?]

theorem commit_records (s : SessionState) (m : SessionMutation) :
    (s.commit m).records = s.records ++ (logItem m).record?.toList := by
  cases m <;> simp [commit, logItem, LogItem.record?]

section
variable (h : s.LogInv)
include h

theorem LogInv.step (hseq : m.seq = s.sequence + 1) : (s.commit m).LogInv where
  seqs := by
    rw [commit_log, commit_sequence, map_append, h.seqs, hseq, List.range'_concat]
    simp [logItem_seq, hseq, Nat.add_comm]
  entries := by
    rw [commit_entries, commit_log, filterMap_append, h.entries]
    cases hm : (logItem m).entryOf? <;> simp [hm]
  records := by
    rw [commit_records, commit_log, filterMap_append, h.records]
    cases hm : (logItem m).record? <;> simp [hm]
  entry_seq seq e he := by
    rw [commit_log, mem_append, mem_singleton] at he
    rcases he with he | he
    · exact h.entry_seq seq e he
    · cases m <;> simp_all [logItem]
  record_seq seq r hr := by
    rw [commit_log, mem_append, mem_singleton] at hr
    rcases hr with hr | hr
    · exact h.record_seq seq r hr
    · cases m <;> simp_all [logItem]

theorem LogInv.length : s.log.length = s.sequence := by
  simpa using congrArg List.length h.seqs

theorem LogInv.log_lt : s.log.Pairwise (fun a b => a.seq < b.seq) := by
  have : (List.range' 1 s.sequence).Pairwise (· < ·) := pairwise_lt_range'
  rw [← h.seqs, pairwise_map] at this
  exact this

theorem LogInv.seq_le {item : LogItem} (hi : item ∈ s.log) : item.seq ≤ s.sequence := by
  have := mem_map_of_mem (f := LogItem.seq) hi
  rw [h.seqs, mem_range'] at this
  omega

theorem LogInv.mem_entries (e : Entry) : e ∈ s.entries ↔ LogItem.entry e.seq e ∈ s.log := by
  rw [h.entries, mem_filterMap]
  constructor
  · rintro ⟨item, hitem, he⟩
    cases item <;> simp only [LogItem.entryOf?, Option.some.injEq, reduceCtorEq] at he
    subst he
    rwa [h.entry_seq _ _ hitem]
  · exact fun he => ⟨_, he, rfl⟩

theorem LogInv.mem_records (r : LaneRecord) : r ∈ s.records ↔ LogItem.record r.seq r ∈ s.log := by
  rw [h.records, mem_filterMap]
  constructor
  · rintro ⟨item, hitem, hr⟩
    cases item <;> simp only [LogItem.record?, Option.some.injEq, reduceCtorEq] at hr
    subst hr
    rwa [h.record_seq _ _ hitem]
  · exact fun hr => ⟨_, hr, rfl⟩

theorem LogInv.entry_le {e : Entry} (he : e ∈ s.entries) : e.seq ≤ s.sequence := h.seq_le ((h.mem_entries e).mp he)

theorem LogInv.record_le {r : LaneRecord} (hr : r ∈ s.records) : r.seq ≤ s.sequence := h.seq_le ((h.mem_records r).mp hr)

theorem LogInv.entries_lt : s.entries.Pairwise (fun a b => a.seq < b.seq) := by
  rw [h.entries, pairwise_filterMap]
  refine h.log_lt.imp_of_mem fun {a b} ha hb hab e he e' he' => ?_
  cases a <;> cases b <;> simp_all [LogItem.entryOf?, LogItem.seq]
  rwa [h.entry_seq _ _ ha, h.entry_seq _ _ hb]

theorem LogInv.records_lt : s.records.Pairwise (fun a b => a.seq < b.seq) := by
  rw [h.records, pairwise_filterMap]
  refine h.log_lt.imp_of_mem fun {a b} ha hb hab r hr r' hr' => ?_
  cases a <;> cases b <;> simp_all [LogItem.record?, LogItem.seq]
  rwa [h.record_seq _ _ ha, h.record_seq _ _ hb]

end

/-! ### Ids -/

/-- The ids of entries and records, each used once; the id sets index them. -/
structure IdInv (s : SessionState) : Prop where
  nodup : (s.entries.map (·.id) ++ s.records.map (·.id)).Nodup
  usedIds : ∀ id, id ∈ s.usedIds ↔ id ∈ s.entries.map (·.id) ++ s.records.map (·.id)
  entriesById : s.entriesById.toList = s.entries.map fun e => (e.id, e)

section
variable (h : s.IdInv)
include h

theorem IdInv.get?_eq_some {e : Entry} : s.entriesById.get? id = some e ↔ e ∈ s.entries ∧ e.id = id := by
  simp only [OrdMap.get?_eq_some_iff, h.entriesById, mem_map, Prod.mk.injEq]
  constructor
  · rintro ⟨e', he', rfl, rfl⟩
    exact ⟨he', rfl⟩
  · rintro ⟨he, rfl⟩
    exact ⟨e, he, rfl, rfl⟩

theorem IdInv.has_iff : s.entriesById.has id = true ↔ ∃ e ∈ s.entries, e.id = id := by
  rw [OrdMap.has, Option.isSome_iff_exists]
  simp only [h.get?_eq_some]

theorem IdInv.not_mem_entries (hid : id ∉ s.usedIds) : id ∉ s.entries.map (·.id) :=
  fun hm => hid ((h.usedIds id).mpr (mem_append_left _ hm))

theorem IdInv.not_mem_records (hid : id ∉ s.usedIds) : id ∉ s.records.map (·.id) :=
  fun hm => hid ((h.usedIds id).mpr (mem_append_right _ hm))

theorem IdInv.entriesById_none (hid : id ∉ s.usedIds) : s.entriesById.get? id = none := by
  refine Option.eq_none_iff_forall_ne_some.mpr fun e he => ?_
  obtain ⟨hmem, rfl⟩ := h.get?_eq_some.mp he
  exact h.not_mem_entries hid (mem_map_of_mem hmem)

theorem IdInv.step (ha : s.Accepts m) : (s.commit m).IdInv := by
  cases m with
  | entry lane e =>
    refine ⟨?_, fun id => ?_, ?_⟩
    · simp only [commit, map_append, map_cons, map_nil, append_assoc, cons_append, nil_append]
      refine nodup_middle.mpr (nodup_cons.mpr ⟨?_, h.nodup⟩)
      exact fun hm => ha.1 ((h.usedIds _).mpr hm)
    · simp only [commit, mem_insert_iff, h.usedIds id, map_append, map_cons, map_nil, mem_append, mem_singleton]
      tauto
    · simp only [commit, OrdMap.toList_set_of_get?_none (h.entriesById_none ha.1),
        h.entriesById, map_append, map_cons, map_nil]
  | record r =>
    refine ⟨?_, fun id => ?_, h.entriesById⟩
    · simp only [commit, map_append, map_cons, map_nil, ← append_assoc]
      refine nodup_append.mpr ⟨h.nodup, by simp, fun a ha' b hb => ?_⟩
      rw [mem_singleton] at hb
      rintro rfl
      exact ha.2 ((h.usedIds _).mpr (hb ▸ ha'))
    · simp only [commit, mem_insert_iff, h.usedIds id, map_append, map_cons, map_nil, mem_append, mem_singleton]
      tauto
  | lane | name | label => exact ⟨h.nodup, h.usedIds, h.entriesById⟩

end

/-- Parents are present and older than their children; lanes point at entries. -/
structure TreeInv (s : SessionState) : Prop where
  parent : ∀ e ∈ s.entries, ∀ p, e.parentId = some p → ∃ e' ∈ s.entries, e'.id = p ∧ e'.seq < e.seq
  leaf : ∀ lane id, s.lanes.get? lane = some (some id) → ∃ e ∈ s.entries, e.id = id

theorem TreeInv.step (h : s.TreeInv) (hL : s.LogInv) (hI : s.IdInv)
    (hseq : m.seq = s.sequence + 1) (ha : s.Accepts m) : (s.commit m).TreeInv := by
  cases m with
  | entry lane e =>
    constructor
    · intro c hc p hp
      simp only [commit, mem_append, mem_singleton] at hc ⊢
      rcases hc with hc | rfl
      · obtain ⟨e', he', hid, hlt⟩ := h.parent c hc p hp
        exact ⟨e', Or.inl he', hid, hlt⟩
      · obtain ⟨e', he', hid⟩ := hI.has_iff.mp (ha.2.2 p hp)
        have := hL.entry_le he'
        simp only [SessionMutation.seq] at hseq
        exact ⟨e', Or.inl he', hid, by omega⟩
    · intro l id hl
      simp only [commit, mem_append, mem_singleton] at hl ⊢
      have hold : s.lanes.get? l = some (some id) → ∃ e', (e' ∈ s.entries ∨ e' = e) ∧ e'.id = id :=
        fun hg => (h.leaf l id hg).imp fun e' he' => ⟨Or.inl he'.1, he'.2⟩
      cases lane with
      | none => exact hold hl
      | some lane =>
        rw [OrdMap.get?_set] at hl
        split_ifs at hl with heq
        · exact ⟨e, Or.inr rfl, by simpa using hl⟩
        · exact hold hl
  | lane seq lane leafId =>
    refine ⟨h.parent, fun l id hl => ?_⟩
    simp only [commit, OrdMap.get?_set] at hl ⊢
    split_ifs at hl with heq
    · exact hI.has_iff.mp (ha id (by simpa using hl))
    · exact h.leaf l id hl
  | record | name | label => exact ⟨h.parent, h.leaf⟩

/-! ### Open operations -/

section OpenOperations

variable {records : List LaneRecord} {r : LaneRecord} (lane : String)

theorem operationStarted?_seq (h : r.operationStarted? = some op) :
    op.seq = r.seq ∧ op.lane = r.lane ∧ op.id = r.id ∧ r.type = .operationStarted := by
  unfold LaneRecord.operationStarted? at h
  split at h
  · rename_i hd
    obtain rfl := Option.some.inj h
    exact ⟨rfl, rfl, rfl, by rw [LaneRecord.type, hd]; rfl⟩
  · cases h

theorem operationStarted?_of_finished (h : r.type = .operationFinished) : r.operationStarted? = none := by
  refine Option.eq_none_iff_forall_ne_some.mpr fun op hop => ?_
  rw [(operationStarted?_seq hop).2.2.2] at h
  cases h

theorem openOperations_append_started (hop : r.operationStarted? = some op) (hlt : ∀ r' ∈ records, r'.seq < r.seq) :
    openOperations (records ++ [r]) lane = openOperations records lane ++ if r.lane = lane then [op] else [] := by
  obtain ⟨hseq, hlane, hid, htype⟩ := operationStarted?_seq hop
  unfold openOperations
  rw [filterMap_append, filter_append]
  congr 1
  · refine filter_congr fun op' _ => ?_
    simp [LaneRecord.finishes, htype, or_imp, forall_and]
  · have hle : ∀ r' ∈ records ++ [r], r'.seq ≤ op.seq := fun r' hr' => by
      rw [mem_append, mem_singleton] at hr'
      rcases hr' with hr' | rfl
      · rw [hseq]; exact (hlt r' hr').le
      · rw [hseq]
    have hall : ∀ r' ∈ records ++ [r], r'.finishes lane op.id → r'.seq ≤ op.seq :=
      fun r' hr' _ => hle r' hr'
    by_cases hl : r.lane = lane <;> simp [hop, hlane, hl]
    simpa using hall

theorem openOperations_append_finished {runId : String} (htype : r.type = .operationFinished)
    (hrun : r.data.runId? = some runId) (hlt : ∀ r' ∈ records, r'.seq < r.seq) : openOperations (records ++ [r]) lane =
      if r.lane = lane then (openOperations records lane).filter fun op => op.id ≠ runId
      else openOperations records lane := by
  unfold openOperations
  rw [filterMap_append, filterMap_cons, operationStarted?_of_finished htype, filterMap_nil, append_nil]
  split_ifs with hl
  · rw [filter_filter]
    refine filter_congr fun op hop => ?_
    obtain ⟨r', hr', hsome⟩ := mem_filterMap.mp hop
    have := hlt r' hr'
    rw [← (operationStarted?_seq hsome).1] at this
    by_cases hid : op.id = runId
    · have hnot : ¬ ∀ r' ∈ records ++ [r], r'.finishes lane op.id → r'.seq ≤ op.seq := fun hall =>
        absurd (hall r (by simp) ⟨hl, htype, hid ▸ hrun⟩) (by omega)
      rw [decide_eq_false fun h => hnot h.2]
      simp [hid]
    · simp [LaneRecord.finishes, hrun, or_imp, forall_and, hid, eq_comm (a := runId)]
  · refine filter_congr fun op _ => ?_
    simp [LaneRecord.finishes, or_imp, forall_and, hl]

theorem openOperations_append_other (hs : r.operationStarted? = none) (hf : r.type ≠ .operationFinished) :
    openOperations (records ++ [r]) lane = openOperations records lane := by
  unfold openOperations
  rw [filterMap_append, filterMap_cons, hs, filterMap_nil, append_nil]
  refine filter_congr fun op _ => ?_
  simp [LaneRecord.finishes, or_imp, forall_and, hf]

theorem openOperations_id_mem (h : op ∈ openOperations records lane) : op.id ∈ records.map (·.id) := by
  obtain ⟨r', hr', hsome⟩ := mem_filterMap.mp (mem_filter.mp h).1
  rw [(operationStarted?_seq hsome).2.2.1]
  exact mem_map_of_mem hr'

end OpenOperations

/-- The open operations kept for a lane, in the order they were started. -/
def openOperationsOf (s : SessionState) (lane : String) : OrdMap String OperationStartedRecord :=
  (s.openOperationsByLane.get? lane).getD ∅

/-- The kept operations are the open ones, by id. -/
def OpenInv (s : SessionState) : Prop :=
  ∀ lane, (s.openOperationsOf lane).toList = (openOperations s.records lane).map fun op => (op.id, op)

theorem getD_addOpenOperation (s : SessionState) (lane l : String) (op : OperationStartedRecord) :
    ((s.addOpenOperation lane op).get? l).getD ∅ =
      if l = lane then (s.openOperationsOf lane).set op.id op else s.openOperationsOf l := by
  unfold addOpenOperation openOperationsOf
  by_cases hl : l = lane <;> simp [hl]

theorem getD_removeOpenOperation (s : SessionState) (lane l runId : String) :
    ((s.removeOpenOperation lane runId).get? l).getD ∅ =
      if l = lane then (s.openOperationsOf lane).erase runId else s.openOperationsOf l := by
  unfold removeOpenOperation openOperationsOf
  cases hg : s.openOperationsByLane.get? lane with
  | none => by_cases hl : l = lane <;> simp [hl, hg]; rfl
  | some ops => by_cases hl : l = lane <;> simp [hl]

theorem OpenInv.step (h : s.OpenInv) (hL : s.LogInv) (hI : s.IdInv)
    (hseq : m.seq = s.sequence + 1) (ha : s.Accepts m) : (s.commit m).OpenInv := by
  cases m with
  | record r =>
    intro lane
    have hlt : ∀ r' ∈ s.records, r'.seq < r.seq := fun r' hr' => by
      have := hL.record_le hr'
      simp only [SessionMutation.seq] at hseq
      omega
    have hrec : (s.commit (.record r)).records = s.records ++ [r] := rfl
    rw [hrec]
    unfold openOperationsOf
    obtain ⟨⟨id, rlane, data⟩, seq, timestamp⟩ := r
    cases data with
    | operationStarted sourceLeafId intent =>
      rw [openOperations_append_started lane rfl hlt]
      simp only [commit, getD_addOpenOperation]
      by_cases hl : lane = rlane
      · subst hl
        have hnone : (s.openOperationsOf lane).get? id = none := by
          refine Option.eq_none_iff_forall_ne_some.mpr fun op hop => ?_
          rw [OrdMap.get?_eq_some_iff, h lane, mem_map] at hop
          obtain ⟨op', hop', heq⟩ := hop
          refine hI.not_mem_records ha.2 ?_
          rw [← (Prod.mk.inj heq).1]
          exact openOperations_id_mem lane hop'
        simp [OrdMap.toList_set_of_get?_none hnone, h lane]
      · simp [hl, h lane, Ne.symm hl]
    | operationFinished runId outcome error =>
      rw [openOperations_append_finished lane rfl rfl hlt]
      simp only [commit, getD_removeOpenOperation]
      by_cases hl : lane = rlane
      · subst hl
        simp [OrdMap.toList_erase, h lane, filter_map, Function.comp_def]
      · simp [hl, h lane, Ne.symm hl]
    | _ =>
      rw [openOperations_append_other lane rfl (by rintro ⟨⟩)]
      exact h lane
  | entry | lane | name | label => exact h

/-- Name, labels and the message count are those of the log. -/
structure FactInv (s : SessionState) : Prop where
  name : s.name = lastName s.log
  labels : ∀ id, s.labels.get? id = lastLabel s.log id
  messageCount : s.stats.messageCount = s.entries.countP (·.type = .message)

theorem lastName_append (log : List LogItem) (item : LogItem) :
    lastName (log ++ [item]) = (item.name?).getD (lastName log) := by
  unfold lastName
  cases h : item.name? <;> simp [filterMap_append, h]

theorem lastLabel_append (log : List LogItem) (item : LogItem) (id : String) :
    lastLabel (log ++ [item]) id = (item.label? id).getD (lastLabel log id) := by
  unfold lastLabel
  cases h : item.label? id <;> simp [filterMap_append, h]

theorem FactInv.step (h : s.FactInv) (m : SessionMutation) : (s.commit m).FactInv where
  name := by
    rw [commit_log, lastName_append, ← h.name]
    cases m <;> rfl
  labels id := by
    rw [commit_log, lastLabel_append, ← h.labels id]
    cases m with
    | label seq targetId label =>
      cases label <;> by_cases hid : id = targetId <;>
        simp [commit, logItem, LogItem.label?, hid, eq_comm]
    | _ => rfl
  messageCount := by
    rw [commit_entries, countP_append, ← h.messageCount]
    cases m with
    | entry lane e =>
      by_cases ht : e.type = .message <;> simp [commit, logItem, LogItem.entryOf?, ht]
    | record r => obtain ⟨⟨id, rlane, data⟩, seq, timestamp⟩ := r; cases data <;> rfl
    | _ => rfl

/-! ### Walks to the root -/

theorem walkFrom_ending_ne_running (s : SessionState) (bounds : BranchBounds) (fuel : ℕ)
    (visited : List String) (current : Entry) (hv : visited.Nodup)
    (hsub : ∀ id ∈ visited, id ∈ s.entriesById.values.map (·.id)) (hc : current ∈ s.entriesById.values)
    (hf : s.entriesById.values.length < fuel + visited.length) :
    (s.walkFrom bounds fuel visited current).ending ≠ .running := by
  induction fuel generalizing visited current with
  | zero =>
    have : visited.length ≤ (s.entriesById.values.map (·.id)).length := (List.Nodup.subperm hv hsub).length_le
    rw [length_map] at this
    omega
  | succ fuel ih =>
    unfold walkFrom
    split_ifs with hmem hb
    · simp
    · simp
    · cases hp : current.parentId with
      | none => simp
      | some parentId =>
        cases hg : s.entriesById.get? parentId with
        | none => simp [hg]
        | some parent =>
          simp only [hg]
          refine ih (current.id :: visited) parent (nodup_cons.mpr ⟨hmem, hv⟩) ?_ ?_ ?_
          · rintro id (_ | ⟨_, hid⟩)
            · exact mem_map_of_mem hc
            · exact hsub id hid
          · exact mem_map.mpr ⟨_, (OrdMap.get?_eq_some_iff _ _ _).mp hg, rfl⟩
          · simp only [length_cons]
            omega

theorem walkToRoot_ending_ne_running (s : SessionState) (start : Option String)
    (bounds : BranchBounds) : (s.walkToRoot start bounds).ending ≠ .running := by
  cases start with
  | none => simp [walkToRoot]
  | some start =>
    cases hg : s.entriesById.get? start with
    | none => simp [walkToRoot, hg]
    | some entry =>
      simp only [walkToRoot, hg]
      refine walkFrom_ending_ne_running s bounds _ [] entry nodup_nil (by simp) ?_ ?_
      · exact mem_map.mpr ⟨_, (OrdMap.get?_eq_some_iff _ _ _).mp hg, rfl⟩
      · simp [OrdMap.values]

/-- The walk from a present entry throws neither of its `invalid_entry` errors:
the visited entries are younger than the current one. -/
theorem walkFrom_not_threw (hI : s.IdInv) (hT : s.TreeInv)
    (bounds : BranchBounds) (fuel : ℕ) (visited : List String) (current : Entry) (hc : current ∈ s.entries)
    (hv : ∀ id ∈ visited, ∃ e ∈ s.entries, e.id = id ∧ current.seq < e.seq)
    (error : SessionError) : (s.walkFrom bounds fuel visited current).ending ≠ .threw error := by
  induction fuel generalizing visited current with
  | zero => simp [walkFrom]
  | succ fuel ih =>
    unfold walkFrom
    split_ifs with hmem hb
    · obtain ⟨e, he, hid, hlt⟩ := hv _ hmem
      have := hI.get?_eq_some.mpr ⟨he, hid⟩
      rw [hI.get?_eq_some.mpr ⟨hc, rfl⟩] at this
      obtain rfl := Option.some.inj this
      exact absurd hlt (lt_irrefl _)
    · simp
    · cases hp : current.parentId with
      | none => simp
      | some parentId =>
        obtain ⟨parent, hpar, hid, hlt⟩ := hT.parent current hc parentId hp
        simp only [hI.get?_eq_some.mpr ⟨hpar, hid⟩]
        refine ih (current.id :: visited) parent hpar fun id hmem' => ?_
        rcases mem_cons.mp hmem' with rfl | hmem'
        · exact ⟨current, hc, rfl, hlt⟩
        · obtain ⟨e, he, hid', hlt'⟩ := hv id hmem'
          exact ⟨e, he, hid', hlt.trans hlt'⟩

/-! ### The invariant over whole runs -/

structure RepInv (s : SessionState) : Prop where
  log : s.LogInv
  ids : s.IdInv
  tree : s.TreeInv
  open_ : s.OpenInv
  facts : s.FactInv

theorem repInv_empty : RepInv {} where
  log := ⟨rfl, rfl, rfl, by simp, by simp⟩
  ids := ⟨by simp, by simp, rfl⟩
  tree := by
    refine ⟨by simp, fun lane id h => ?_⟩
    rw [OrdMap.get?_eq_some_iff] at h
    simp [OrdMap.single] at h
  open_ lane := rfl
  facts := ⟨rfl, fun id => rfl, rfl⟩

theorem RepInv.commit (h : s.RepInv) (hm : s.checkMutation m = none) : (s.commit m).RepInv := by
  obtain ⟨hseq, ha⟩ := checkMutation_eq_none hm
  exact ⟨h.log.step hseq, h.ids.step ha, h.tree.step h.log h.ids hseq ha,
    h.open_.step h.log h.ids hseq ha, h.facts.step m⟩

theorem RepInv.applyMutation (h : s.RepInv) (m : SessionMutation)
    (invalid : String → SessionError) : ((applyMutation m invalid).run s).2.RepInv := by
  rw [applyMutation_run]
  cases hm : s.checkMutation m with
  | some message => exact h
  | none => exact h.commit hm

/-- The state after a list of calls, those that throw included. -/
def applyMutations (s : SessionState) (calls : List (SessionMutation × (String → SessionError))) : SessionState :=
  calls.foldl (fun s call => ((SessionState.applyMutation call.1 call.2).run s).2) s

theorem RepInv.applyMutations (h : s.RepInv)
    (calls : List (SessionMutation × (String → SessionError))) : (s.applyMutations calls).RepInv := by
  induction calls generalizing s with
  | nil => exact h
  | cons call calls ih => exact ih (h.applyMutation call.1 call.2)

theorem findOpenOperations_eq (s : SessionState) (lane : String) (limit : Option ℤ) :
    s.findOpenOperations lane limit = (assertValidLimit limit).map fun _ =>
      takeLimit limit (s.openOperationsOf lane).values.reverse := by
  unfold SessionState.findOpenOperations openOperationsOf
  cases assertValidLimit limit with
  | error error => rfl
  | ok _ => cases s.openOperationsByLane.get? lane <;> rfl

theorem OpenInv.values (h : s.OpenInv) (lane : String) :
    (s.openOperationsOf lane).values = openOperations s.records lane := by
  rw [OrdMap.values, h lane, map_map]
  simp [Function.comp_def]

theorem RepInv.findOpenOperations (h : s.RepInv) (lane : String) :
    s.findOpenOperations lane = .ok (openOperations s.records lane).reverse := by
  rw [findOpenOperations_eq, h.open_.values]
  rfl

theorem RepInv.walkToRoot_ending (h : s.RepInv) (start : Option String)
    (bounds : BranchBounds) : (s.walkToRoot start bounds).ending = .returned ∨
      ∃ id, start = some id ∧ (∀ e ∈ s.entries, e.id ≠ id) ∧
        s.walkToRoot start bounds = ⟨[], .threw ⟨.notFound, "Entry not found: " ++ id⟩⟩ := by
  have hrun := s.walkToRoot_ending_ne_running start bounds
  cases start with
  | none => exact Or.inl rfl
  | some id =>
    cases hg : s.entriesById.get? id with
    | none =>
      refine Or.inr ⟨id, rfl, fun e he hid => ?_, by simp [walkToRoot, hg]⟩
      rw [h.ids.get?_eq_some.mpr ⟨he, hid⟩] at hg
      cases hg
    | some entry =>
      refine Or.inl ?_
      have hthr := walkFrom_not_threw h.ids h.tree bounds
        (s.entriesById.toList.length + 1) [] entry (h.ids.get?_eq_some.mp hg).1 (by simp)
      simp only [walkToRoot, hg] at hrun ⊢
      cases hend : (s.walkFrom bounds (s.entriesById.toList.length + 1) [] entry).ending with
      | returned => rfl
      | threw error => exact absurd hend (hthr error)
      | running => exact absurd hend hrun

/-- **After any calls of `applyMutation` from the empty state**, valid or not:
the log has sequence numbers `1 … n`; entries and records are its entries and
records in that order with distinct ids; parents are present and older, lanes
point at entries; open operations, labels, name and message count are those of
the log; a call that throws changes nothing; and a walk to the root returns,
unless it starts at an id that is no entry. -/
theorem applyMutations_represents (calls : List (SessionMutation × (String → SessionError))) :
    let s := ({} : SessionState).applyMutations calls
    (s.log.map LogItem.seq = List.range' 1 s.log.length ∧ s.sequence = s.log.length) ∧
    (s.entries = s.log.filterMap LogItem.entryOf? ∧ s.records = s.log.filterMap LogItem.record? ∧
      s.entries.Pairwise (fun a b => a.seq < b.seq) ∧ s.records.Pairwise (fun a b => a.seq < b.seq) ∧
      (s.entries.map (·.id) ++ s.records.map (·.id)).Nodup) ∧
    ((∀ e ∈ s.entries, ∀ p, e.parentId = some p → ∃ e' ∈ s.entries, e'.id = p ∧ e'.seq < e.seq) ∧
      ∀ lane id, s.lanes.get? lane = some (some id) → ∃ e ∈ s.entries, e.id = id) ∧
    (∀ lane, s.findOpenOperations lane = .ok (openOperations s.records lane).reverse) ∧
    (s.getName = lastName s.log ∧ (∀ id, s.getLabel id = lastLabel s.log id) ∧
      s.getStats.messageCount = s.entries.countP (·.type = .message)) ∧
    (∀ m invalid error, ((applyMutation m invalid).run s).1 = .error error →
      ((applyMutation m invalid).run s).2 = s) ∧ ∀ start bounds, (s.walkToRoot start bounds).ending = .returned ∨
      ∃ id, start = some id ∧ (∀ e ∈ s.entries, e.id ≠ id) ∧
        s.walkToRoot start bounds = ⟨[], .threw ⟨.notFound, "Entry not found: " ++ id⟩⟩ := by
  intro s
  have h : s.RepInv := repInv_empty.applyMutations calls
  refine ⟨⟨?_, h.log.length.symm⟩, ⟨h.log.entries, h.log.records, h.log.entries_lt,
    h.log.records_lt, h.ids.nodup⟩, ⟨h.tree.parent, h.tree.leaf⟩, h.findOpenOperations,
    ⟨h.facts.name, h.facts.labels, h.facts.messageCount⟩, ?_, h.walkToRoot_ending⟩
  · rw [h.log.length]
    exact h.log.seqs
  · intro m invalid error he
    rw [applyMutation_run] at he ⊢
    cases hm : s.checkMutation m with
    | some message => rfl
    | none => simp [hm] at he

end SessionState
end EasyPi.Session
