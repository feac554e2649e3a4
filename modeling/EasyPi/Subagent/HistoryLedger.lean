/-
# The ledger of turns over its writes

A valid ledger stays valid. A write keeps the sequences and the targets of the turns in it; a new turn gets
a sequence above all others.
-/
import EasyPi.Subagent.History

namespace EasyPi.Subagent

open List
namespace History

section
variable {K : TurnChecks} {L L' : Ledger} {record : TurnRecord} {row : TurnRow}

/-! ### Valid records -/

structure SoundTurn (L : Ledger) (record : TurnRecord) : Prop where
  positive : 1 ≤ record.view.sequence
  safe : record.view.sequence ≤ maxSafeInteger
  root : record.rootSessionId = L.rootSessionId
  coverage : record.view.historyCoverage = L.coverage
  path : isAgentPath record.view.target = true
  bytes : jsonBytes record.view.toJson ≤ maxTurnMetadataBytes

theorem view_sublist (record : TurnRecord) (more : Fields) : record.view.fields.Sublist (record.metadata ++ more) := by
  rw [TurnRecord.metadata]
  exact (sublist_cons_self ..).trans (sublist_append_left ..)

theorem soundTurn_of_validate (h : validateTurn K L record = .ok ()) : SoundTurn L record := by
  rw [validateTurn] at h
  obtain ⟨_, hide, h⟩ := bind_ok_iff.mp h
  obtain ⟨_, hcon, h⟩ := bind_ok_iff.mp h
  obtain ⟨_, _, h⟩ := bind_ok_iff.mp h
  obtain ⟨_, _, h⟩ := bind_ok_iff.mp h
  obtain ⟨_, _, hbud⟩ := bind_ok_iff.mp h
  rw [failIf_eq_ok] at hide hcon hbud
  push Not at hide hcon hbud
  obtain ⟨-, hpos, hsafe, hroot, hcov, -⟩ := hide
  refine ⟨hpos, hsafe, hroot, hcov, Bool.of_not_eq_false hcon.1, ?_⟩
  exact (jsonBytes_obj_le_of_sublist (view_sublist record _) (cons_ne_nil _ _)).trans hbud.1

/-- The columns of a row are those of its record. -/
structure Indexed (row : TurnRow) : Prop where
  sequence : row.record.view.sequence = row.sequence
  target : row.record.view.target = row.target
  turnId : row.record.view.turnId = row.turnId
  taskMessageId : row.record.view.taskMessageId = row.taskMessageId
  resultMessageId : row.record.view.resultMessageId = row.resultMessageId

theorem decodeTurn_eq_ok_iff :
    decodeTurn K L row = .ok record ↔ Indexed row ∧ validateTurn K L row.record = .ok () ∧ row.record = record := by
  rw [decodeTurn, bind_ok_iff]
  constructor
  · rintro ⟨_, hidx, h⟩
    obtain ⟨⟨⟩, hval, h⟩ := bind_ok_iff.mp h
    rw [failIf_eq_ok] at hidx
    push Not at hidx
    exact ⟨⟨hidx.1, hidx.2.1, hidx.2.2.1, hidx.2.2.2.1, hidx.2.2.2.2⟩, hval, pure_ok_iff.mp h⟩
  · rintro ⟨hidx, hval, hrec⟩
    refine ⟨(), failIf_eq_ok.mpr ?_, bind_ok_iff.mpr ⟨(), hval, pure_ok_iff.mpr hrec⟩⟩
    push Not
    exact ⟨hidx.sequence, hidx.target, hidx.turnId, hidx.taskMessageId, hidx.resultMessageId⟩

/-- The rows stand in the order of their keys, no two are of one turn, and each can be decoded. -/
structure Valid (K : TurnChecks) (L : Ledger) : Prop where
  sorted : L.rows.Pairwise fun row other => row.sequence < other.sequence
  distinct : (L.rows.map fun row => (row.target, row.turnId)).Nodup
  decodes : ∀ row ∈ L.rows, decodeTurn K L row = .ok row.record

theorem Valid.sound (h : Valid K L) (hrow : row ∈ L.rows) : Indexed row ∧ SoundTurn L row.record := by
  obtain ⟨hidx, hval, -⟩ := decodeTurn_eq_ok_iff.mp (h.decodes row hrow)
  exact ⟨hidx, soundTurn_of_validate hval⟩

theorem foldl_max_le {sequences : List ℕ} {start bound : ℕ} (hpre : start ≤ bound)
    (h : ∀ n ∈ sequences, n ≤ bound) : sequences.foldl max start ≤ bound := by
  induction sequences generalizing start with
  | nil => exact hpre
  | cons n sequences ih =>
    obtain ⟨hn, hrest⟩ := forall_mem_cons.mp h
    exact ih (max_le hpre hn) hrest

theorem le_foldl_max_of_mem {sequences : List ℕ} {start n : ℕ} (h : n ≤ start ∨ n ∈ sequences) :
    n ≤ sequences.foldl max start := by
  induction sequences generalizing start with
  | nil => exact h.resolve_right not_mem_nil
  | cons m sequences ih =>
    refine ih ?_
    rcases h with hpre | hmem
    · exact .inl (le_max_of_le_left hpre)
    · rcases mem_cons.mp hmem with rfl | hrest
      · exact .inl (le_max_right ..)
      · exact .inr hrest

theorem le_maxSequence (hrow : row ∈ L.rows) : row.sequence ≤ maxSequence L :=
  le_foldl_max_of_mem (.inr (mem_map_of_mem hrow))

theorem Valid.readHighWater_eq (h : Valid K L) : readHighWater L = .ok (maxSequence L) := by
  have hsafe : maxSequence L ≤ maxSafeInteger := by
    refine foldl_max_le (Nat.zero_le _) fun n hn => ?_
    obtain ⟨row, hrow, rfl⟩ := mem_map.mp hn
    obtain ⟨hidx, hsnd⟩ := h.sound hrow
    rw [← hidx.sequence]
    exact hsnd.safe
  rw [readHighWater, failIf_bind (not_lt.mpr hsafe)]
  rfl

/-! ### Writes -/

def keys (L : Ledger) : List (ℕ × String) := L.rows.map fun row => (row.sequence, row.target)

/-- The ledger has the same turns and perhaps more, with sequences above all others. -/
structure Extends (L L' : Ledger) : Prop where
  root : L'.rootSessionId = L.rootSessionId
  coverage : L'.coverage = L.coverage
  keys : ∃ more, keys L' = keys L ++ more ∧ ∀ key ∈ more, maxSequence L < key.1

theorem maxSequence_eq_keys (L : Ledger) : maxSequence L = ((keys L).map (·.1)).foldl max 0 := by
  rw [keys, map_map]
  rfl

theorem Extends.refl (L : Ledger) : Extends L L := ⟨rfl, rfl, [], (append_nil _).symm, fun _ h => absurd h not_mem_nil⟩

theorem Extends.maxSequence_le (h : Extends L L') : maxSequence L ≤ maxSequence L' := by
  obtain ⟨more, hkeys, -⟩ := h.keys
  rw [maxSequence_eq_keys, maxSequence_eq_keys, hkeys, map_append, foldl_append]
  exact le_foldl_max_of_mem (.inl (Nat.le_refl _))

theorem Extends.trans {L'' : Ledger} (h : Extends L L') (h' : Extends L' L'') : Extends L L'' := by
  obtain ⟨more, hkeys, hmore⟩ := h.keys
  obtain ⟨more', hkeys', hmore'⟩ := h'.keys
  refine ⟨h'.root.trans h.root, h'.coverage.trans h.coverage, more ++ more', ?_, fun key hkey => ?_⟩
  · rw [hkeys', hkeys, append_assoc]
  · rcases mem_append.mp hkey with hkey | hkey
    · exact hmore key hkey
    · exact h.maxSequence_le.trans_lt (hmore' key hkey)

theorem rowsBetween_keys (L : Ledger) (target : String) (after highWater : ℕ) :
    (rowsBetween L target after highWater).map (·.sequence) =
      ((keys L).filter fun key => key.2 = target && after < key.1 && key.1 ≤ highWater).map (·.1) := by
  rw [rowsBetween, keys, filter_map, map_map]
  rfl

/-- **New turns are on no page below the mark**. -/
theorem rowsBetween_of_extends (h : Extends L L') {target : String} {after highWater : ℕ}
    (hhigh : highWater ≤ maxSequence L) : (rowsBetween L' target after highWater).map (·.sequence) =
      (rowsBetween L target after highWater).map (·.sequence) := by
  obtain ⟨more, hkeys, hmore⟩ := h.keys
  have hnone : more.filter (fun key => key.2 = target && after < key.1 && key.1 ≤ highWater) = [] := by
    refine filter_eq_nil_iff.mpr fun key hkey => ?_
    have habv := hmore key hkey
    have hnot : ¬ key.1 ≤ highWater := by omega
    simp [hnot]
  rw [rowsBetween_keys, rowsBetween_keys, hkeys, filter_append, hnone, append_nil]

theorem rowAt_eq_some {target turnId : String} (h : rowAt L target turnId = some row) :
    row ∈ L.rows ∧ row.target = target ∧ row.turnId = turnId := by
  have hkey := List.find?_some h
  rw [Bool.and_eq_true, decide_eq_true_iff, decide_eq_true_iff] at hkey
  exact ⟨mem_of_find?_eq_some h, hkey.1, hkey.2⟩

theorem rowAt_eq_none {target turnId : String} (h : rowAt L target turnId = none) :
    (target, turnId) ∉ L.rows.map fun row => (row.target, row.turnId) := by
  intro hmem
  obtain ⟨row, hrow, hkey⟩ := mem_map.mp hmem
  have hnot := List.find?_eq_none.mp h row hrow
  rw [Bool.and_eq_true, decide_eq_true_iff, decide_eq_true_iff] at hnot
  exact hnot ⟨congrArg Prod.fst hkey, congrArg Prod.snd hkey⟩

/-! ### Additions -/

theorem insertRow_above (h : ∀ row ∈ L.rows, row.sequence < record.view.sequence) :
    insertRow L.rows record = L.rows ++ [rowOf record] := by
  have hbel : L.rows.filter (fun row => row.sequence < record.view.sequence) = L.rows :=
    filter_eq_self.mpr fun row hrow => decide_eq_true (h row hrow)
  have habv : L.rows.filter (fun row => record.view.sequence < row.sequence) = [] :=
    filter_eq_nil_iff.mpr fun row hrow => by simpa using (h row hrow).le
  rw [insertRow, hbel, habv]

theorem decodeTurn_rowOf (h : validateTurn K L record = .ok ()) : decodeTurn K L (rowOf record) = .ok record :=
  decodeTurn_eq_ok_iff.mpr ⟨⟨rfl, rfl, rfl, rfl, rfl⟩, h, rfl⟩

theorem writeTurn_new (hnone : rowAt L record.view.target record.view.turnId = none) (h : writeTurn K L record = .ok L') :
    validateTurn K L record = .ok () ∧ L' = { L with rows := insertRow L.rows record } := by
  rw [writeTurn] at h
  obtain ⟨_, hval, h⟩ := bind_ok_iff.mp h
  obtain ⟨_, -, h⟩ := bind_ok_iff.mp h
  rw [hnone] at h
  obtain ⟨_, -, h⟩ := bind_ok_iff.mp h
  obtain ⟨_, -, h⟩ := bind_ok_iff.mp h
  exact ⟨hval, (pure_ok_iff.mp h).symm⟩

theorem valid_of_append (hval : Valid K L) (hrec : validateTurn K L record = .ok ())
    (hnone : rowAt L record.view.target record.view.turnId = none)
    (habv : ∀ row ∈ L.rows, row.sequence < record.view.sequence) :
    Valid K { L with rows := L.rows ++ [rowOf record] } := by
  refine ⟨?_, ?_, fun row hrow => ?_⟩
  · refine pairwise_append.mpr ⟨hval.sorted, pairwise_singleton .., fun row hrow other hoth => ?_⟩
    rw [mem_singleton.mp hoth]
    exact habv row hrow
  · rw [map_append, map_singleton, nodup_append]
    refine ⟨hval.distinct, nodup_singleton _, fun key hkey other hoth heq => ?_⟩
    rw [heq, mem_singleton.mp hoth] at hkey
    exact rowAt_eq_none hnone hkey
  · have hsame (row : TurnRow) : decodeTurn K { L with rows := L.rows ++ [rowOf record] } row = decodeTurn K L row := rfl
    rw [hsame]
    rcases mem_append.mp hrow with hold | hnew
    · exact hval.decodes row hold
    · rw [mem_singleton.mp hnew]
      exact decodeTurn_rowOf hrec

/-- **A new turn** keeps the ledger valid and extends it. -/
theorem addTurn_spec (hval : Valid K L) {turn : TurnRecord}
    (hnone : rowAt L turn.view.target turn.view.turnId = none) (h : addTurn K L turn = .ok L') :
    Valid K L' ∧ Extends L L' := by
  rw [addTurn, hval.readHighWater_eq] at h
  obtain ⟨_, ⟨⟩, h⟩ := bind_ok_iff.mp h
  have hwri : writeTurn K L (newTurn L (maxSequence L) turn) = .ok L' := h
  have hnew : rowAt L (newTurn L (maxSequence L) turn).view.target (newTurn L (maxSequence L) turn).view.turnId = none :=
    hnone
  obtain ⟨hrec, hL'⟩ := writeTurn_new hnew hwri
  have habv : ∀ row ∈ L.rows, row.sequence < (newTurn L (maxSequence L) turn).view.sequence :=
    fun row hrow => Nat.lt_succ_of_le (le_maxSequence hrow)
  rw [insertRow_above habv] at hL'
  rw [hL']
  refine ⟨valid_of_append hval hrec hnew habv, rfl, rfl, _, map_append .., fun key hkey => ?_⟩
  rw [map_singleton] at hkey
  rw [mem_singleton.mp hkey]
  exact Nat.lt_succ_self _

/-! ### Changes -/

theorem writeTurn_old (hrow : rowAt L record.view.target record.view.turnId = some row)
    (h : writeTurn K L record = .ok L') :
    validateTurn K L record = .ok () ∧ L' = { L with rows := L.rows.map (replaceRow record) } := by
  rw [writeTurn] at h
  obtain ⟨_, hval, h⟩ := bind_ok_iff.mp h
  obtain ⟨_, -, h⟩ := bind_ok_iff.mp h
  rw [hrow] at h
  exact ⟨hval, (pure_ok_iff.mp h).symm⟩

theorem replaceRow_keys (record : TurnRecord) (row : TurnRow) :
    (replaceRow record row).sequence = row.sequence ∧ (replaceRow record row).target = row.target ∧
      (replaceRow record row).turnId = row.turnId := by
  rw [replaceRow]
  split <;> exact ⟨rfl, rfl, rfl⟩

theorem Valid.sequence_unique (h : Valid K L) {other : TurnRow} (hrow : row ∈ L.rows) (hoth : other ∈ L.rows)
    (htgt : row.target = other.target) (hturn : row.turnId = other.turnId) : row = other :=
  inj_on_of_nodup_map h.distinct hrow hoth (by rw [htgt, hturn])

theorem valid_of_replace (hval : Valid K L) (hrow : row ∈ L.rows) (hrec : validateTurn K L record = .ok ())
    (hseq : record.view.sequence = row.sequence) (htgt : record.view.target = row.target)
    (hturn : record.view.turnId = row.turnId) : Valid K { L with rows := L.rows.map (replaceRow record) } := by
  refine ⟨?_, ?_, fun other hoth => ?_⟩
  · rw [pairwise_map]
    exact hval.sorted.imp fun h => by rwa [(replaceRow_keys record _).1, (replaceRow_keys record _).1]
  · rw [map_map]
    have hkeys : ((fun row : TurnRow => (row.target, row.turnId)) ∘ replaceRow record) =
        fun row => (row.target, row.turnId) := by
      funext row
      exact Prod.ext (replaceRow_keys record row).2.1 (replaceRow_keys record row).2.2
    rw [hkeys]
    exact hval.distinct
  · have hsame (row : TurnRow) :
        decodeTurn K { L with rows := L.rows.map (replaceRow record) } row = decodeTurn K L row := rfl
    obtain ⟨old, hold, rfl⟩ := mem_map.mp hoth
    rw [hsame, replaceRow]
    split
    · rename_i hkey
      have heq : old = row := hval.sequence_unique hold hrow (hkey.1.trans htgt) (hkey.2.trans hturn)
      rw [heq]
      exact decodeTurn_eq_ok_iff.mpr ⟨⟨hseq, htgt, hturn, rfl, rfl⟩, hrec, rfl⟩
    · exact hval.decodes old hold

/-- **A change** keeps the ledger valid and its keys. -/
theorem updateTurn_spec (hval : Valid K L) {target turnId : String} {change : TurnRecord → TurnRecord}
    (h : updateTurn K L target turnId change = .ok L') : Valid K L' ∧ Extends L L' := by
  rw [updateTurn] at h
  cases hrow : rowAt L target turnId with
  | none =>
    rw [hrow] at h
    rw [← Except.ok.inj h]
    exact ⟨hval, Extends.refl L⟩
  | some row =>
    rw [hrow] at h
    obtain ⟨hmem, htgt, hturn⟩ := rowAt_eq_some hrow
    obtain ⟨turn, hturnRecord, h⟩ := bind_ok_iff.mp h
    obtain ⟨hidx, -, hrec⟩ := decodeTurn_eq_ok_iff.mp hturnRecord
    rw [← hrec] at h
    generalize hcha : changedTurn row.record (change row.record) = changed at h
    have htar : changed.view.target = row.target := by
      rw [← hcha]
      exact hidx.target
    have htur : changed.view.turnId = row.turnId := by
      rw [← hcha]
      exact hidx.turnId
    have hseq : changed.view.sequence = row.sequence := by
      rw [← hcha]
      exact hidx.sequence
    have hfnd : rowAt L changed.view.target changed.view.turnId = some row := by
      rw [htar, htur, htgt, hturn, hrow]
    obtain ⟨hvali, hL'⟩ := writeTurn_old hfnd h
    rw [hL']
    refine ⟨valid_of_replace hval hmem hvali hseq htar htur, rfl, rfl, [], ?_, fun key hkey => absurd hkey not_mem_nil⟩
    rw [append_nil, keys, keys, map_map]
    refine map_congr_left fun other _ => ?_
    exact Prod.ext (replaceRow_keys _ other).1 (replaceRow_keys _ other).2.1

/-- **Commits** keep the ledger valid and extend it. -/
theorem commits_spec (hval : Valid K L) (h : Commits K L L') : Valid K L' ∧ Extends L L' := by
  induction h with
  | refl => exact ⟨hval, Extends.refl L⟩
  | tail _ hwri ih =>
    obtain ⟨hmid, hext⟩ := ih
    cases hwri with
    | add turn hnone hwri =>
      obtain ⟨hend, hlast⟩ := addTurn_spec hmid hnone hwri
      exact ⟨hend, hext.trans hlast⟩
    | update target turnId change hwri =>
      obtain ⟨hend, hlast⟩ := updateTurn_spec hmid hwri
      exact ⟨hend, hext.trans hlast⟩

end

end History
end EasyPi.Subagent
