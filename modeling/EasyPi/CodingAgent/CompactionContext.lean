/-
# A compaction loses no context

On a path whose compactions are summary checkpoints, the messages in the context before a compaction are
the messages that `prepareCompaction` gives to the summary followed by the messages of the entries that it
keeps. The first kept entry of the latest compaction may not stand behind that compaction:
`prepareCompaction` looks for it on the whole path, `buildContextEntries` only before the compaction.
-/
import EasyPi.CodingAgent.CutPoint
import Mathlib.Data.List.TakeWhile

namespace EasyPi.CodingAgent

open List
namespace Compaction

/-- The compactions hold a summary and the first kept entry, and no replacement history. -/
def SummaryCheckpoints (path : List SessionEntry) : Prop :=
  ∀ entry ∈ path, ∀ data, entry.body = .compaction data →
    data.summary.isSome = true ∧ data.firstKeptEntryId.isSome = true ∧ data.replacementHistory = none

def latestCompaction (path : List SessionEntry) : Option SessionEntry := (path.filter SessionEntry.isCompaction).getLast?

/-- The messages of the entries from an id on, without the latest compaction. -/
def keptMessages (path : List SessionEntry) (firstKeptEntryId : String) : List SessionMessage :=
  ((path.dropWhile (·.id ≠ firstKeptEntryId)).filter (some · ≠ latestCompaction path)).flatMap
    sessionEntryToContextMessages

/-- The messages that are given to the summary. -/
def sourcePrefix (preparation : CompactionPreparation) : List SessionMessage :=
  if preparation.isSplitTurn then preparation.turnPrefixSourceMessages else preparation.sourceMessages

/-- The entry that the latest compaction keeps first does not stand behind it. -/
def KeepsEarlier (path : List SessionEntry) : Prop :=
  ∀ before compaction after data id, path = before ++ compaction :: after →
    latestCompaction path = some compaction → compaction.body = .compaction data →
    data.firstKeptEntryId = some id → id ∉ after.map (·.id)

section
variable {path before after : List SessionEntry} {compaction : SessionEntry}

theorem nodup_of_distinct (h : (path.map (·.id)).Nodup) : path.Nodup := List.Nodup.of_map _ h

theorem flatMap_range'_eq (hnd : path.Nodup) (skipped : Option ℕ) {a n : ℕ} (hlen : a + n ≤ path.length) :
    ((List.range' a n).filter (some · ≠ skipped)).flatMap
        (fun i => (path[i]?.map sessionEntryToContextMessages).getD []) =
      (((path.drop a).take n).filter (some · ≠ skipped.bind (path[·]?))).flatMap sessionEntryToContextMessages := by
  induction n generalizing a with
  | zero => rw [take_zero]; rfl
  | succ n ih =>
    have ha : a < path.length := by omega
    have hget : path[a]? = some path[a] := List.getElem?_eq_getElem ha
    have hskip : (some a ≠ skipped) ↔ (some path[a] ≠ skipped.bind (path[·]?)) := by
      refine not_congr ⟨?_, fun h => ?_⟩
      · rintro rfl
        rw [Option.bind_some, hget]
      · obtain ⟨i, rfl, hi⟩ := Option.bind_eq_some_iff.mp h.symm
        exact congrArg some ((List.getElem?_inj ha hnd).mp (hget.trans hi.symm))
    rw [List.range'_succ, drop_eq_getElem_cons ha, take_succ_cons]
    by_cases h : some a ≠ skipped
    · rw [filter_cons_of_pos (by exact decide_eq_true h),
        filter_cons_of_pos (by exact decide_eq_true (hskip.mp h)), flatMap_cons, flatMap_cons, ih (by omega), hget]
      rfl
    · rw [filter_cons_of_neg (by simpa using h), filter_cons_of_neg (by simpa using mt hskip.mpr h), ih (by omega)]

theorem collectSourceMessages_eq (hnd : path.Nodup) (previous : Option ℕ) {a b : ℕ} (hab : a ≤ b) (hb : b ≤ path.length) :
    collectSourceMessages path a b previous = ((previous.bind (path[·]?)).map sessionEntryToContextMessages).getD [] ++
        ((slice path a b).filter (some · ≠ previous.bind (path[·]?))).flatMap sessionEntryToContextMessages := by
  have hsli : slice path a b = (path.drop a).take (b - a) := by
    rw [slice, drop_take]
  rw [collectSourceMessages, flatMap_range'_eq hnd previous (by omega), hsli]

theorem latestCompaction_concat (entry : SessionEntry) :
    latestCompaction (path ++ [entry]) = if entry.isCompaction then some entry else latestCompaction path := by
  rw [latestCompaction, filter_append]
  by_cases h : entry.isCompaction = true
  · rw [filter_cons_of_pos h, filter_nil, List.getLast?_concat, if_pos h]
  · rw [filter_cons_of_neg h, filter_nil, append_nil, if_neg h, latestCompaction]

theorem lastCompactionIndex_concat (entry : SessionEntry) : lastCompactionIndex (path ++ [entry]) =
      if entry.isCompaction then some path.length else lastCompactionIndex path := by
  have hold : (List.range path.length).filter (holdsAt SessionEntry.isCompaction (path ++ [entry])) =
      (List.range path.length).filter (holdsAt SessionEntry.isCompaction path) := by
    refine filter_congr fun i hi => ?_
    rw [holdsAt, holdsAt, List.getElem?_append_left (mem_range.mp hi)]
  have hnew : holdsAt SessionEntry.isCompaction (path ++ [entry]) path.length = entry.isCompaction := by
    rw [holdsAt, List.getElem?_concat_length, Option.any_some]
  rw [lastCompactionIndex, length_append, length_singleton, range_succ, filter_append, hold]
  by_cases h : entry.isCompaction = true
  · rw [filter_cons_of_pos (hnew.trans h), filter_nil, List.getLast?_concat, if_pos h]
  · rw [filter_cons_of_neg (by rw [hnew]; exact h), filter_nil, append_nil, if_neg h, lastCompactionIndex]

theorem latestCompaction_cases (path : List SessionEntry) :
    (latestCompaction path = none ∧ lastCompactionIndex path = none) ∨
      ∃ before compaction after, path = before ++ compaction :: after ∧ compaction.isCompaction = true ∧
        latestCompaction path = some compaction ∧ lastCompactionIndex path = some before.length := by
  induction path using List.reverseRecOn with
  | nil => exact .inl ⟨rfl, rfl⟩
  | append_singleton path entry ih =>
    rw [latestCompaction_concat, lastCompactionIndex_concat]
    by_cases h : entry.isCompaction = true
    · rw [if_pos h, if_pos h]
      exact .inr ⟨path, entry, [], rfl, h, rfl, rfl⟩
    · rw [if_neg h, if_neg h]
      rcases ih with hnone | ⟨before, compaction, after, rfl, hcom, hlat, hidx⟩
      · exact .inl hnone
      · refine .inr ⟨before, compaction, after ++ [entry], ?_, hcom, hlat, hidx⟩
        rw [append_assoc, cons_append]

/-! ### The active entries -/

theorem keptFrom_some {id : String} (hid : id ≠ "") (entries : List SessionEntry) :
    keptFrom (some id) entries = entries.drop (entries.findIdx (·.id = id)) := by
  rw [keptFrom, if_neg hid, dropWhile_eq_drop_findIdx_not]
  refine congrArg (fun p => entries.drop (entries.findIdx p)) (funext fun entry => ?_)
  by_cases h : entry.id = id <;> simp [h]

theorem contextEntriesOf_eq (hdst : (path.map (·.id)).Nodup) (hpath : path = before ++ compaction :: after)
    (hlat : latestCompaction path = some compaction) : contextEntriesOf path =
      compaction :: keptFrom (compaction.compaction?.bind (·.firstKeptEntryId)) before ++ after := by
  have hbef : ∀ entry ∈ before, entry.id ≠ compaction.id := by
    intro entry hent heq
    rw [hpath, map_append, map_cons] at hdst
    exact (nodup_append.mp hdst).2.2 _ (mem_map_of_mem hent) _ (mem_cons_self ..) heq
  have hidx : path.findIdx (·.id = compaction.id) = before.length := by
    have hall : before.findIdx (·.id = compaction.id) = before.length :=
      findIdx_eq_length.mpr fun entry hent => decide_eq_false (hbef entry hent)
    rw [hpath, findIdx_append, hall, if_neg (Nat.lt_irrefl _), findIdx_cons]
    simp
  rw [contextEntriesOf, show (path.filter SessionEntry.isCompaction).getLast? = some compaction from hlat]
  dsimp only
  rw [hidx, hpath, take_left, ← drop_drop, drop_left]
  rfl

theorem keptFrom_eq_nil {id : String} (entries : List SessionEntry) (h : ∀ entry ∈ entries, entry.id ≠ id) :
    keptFrom (some id) entries = [] := by
  rw [keptFrom]
  split
  · rfl
  · exact dropWhile_eq_nil_iff.mpr fun entry hent => decide_eq_true (h entry hent)

theorem boundaryStart_spec (hpath : path = before ++ compaction :: after)
    (hbl : ∀ entry ∈ path, entry.id ≠ "") {data : CompactionData} {id : String}
    (hbody : compaction.body = .compaction data) (hid : data.firstKeptEntryId = some id)
    (hearlier : id ∉ after.map (·.id)) : boundaryStart path (some before.length) ≤ before.length + 1 ∧
      keptFrom (some id) before = before.drop (boundaryStart path (some before.length)) := by
  have hcom : path[before.length]? = some compaction := by
    rw [hpath, List.getElem?_append_right (Nat.le_refl _), Nat.sub_self, List.getElem?_cons_zero]
  have hfst : (path[before.length]?.bind SessionEntry.compaction?).bind (·.firstKeptEntryId) = some id := by
    rw [hcom, Option.bind_some, SessionEntry.compaction?, hbody]
    exact hid
  have haft : after.findIdx? (fun entry => some entry.id = some id) = none := by
    refine List.findIdx?_eq_none_iff.mpr fun entry hent => decide_eq_false fun heq => ?_
    rw [Option.some_inj] at heq
    exact hearlier (heq ▸ mem_map_of_mem hent)
  rw [boundaryStart, hfst, hpath, List.findIdx?_append]
  cases hbef : before.findIdx? (fun entry => some entry.id = some id) with
  | some i =>
    obtain ⟨hlt, heq, -⟩ := List.findIdx?_eq_some_iff_getElem.mp hbef
    have hid' : before[i].id = id := Option.some_inj.mp (of_decide_eq_true heq)
    have hne : id ≠ "" := by
      rw [← hid']
      refine hbl _ ?_
      rw [hpath]
      exact mem_append_left _ (getElem_mem hlt)
    refine ⟨by dsimp only [Option.or]; omega, ?_⟩
    rw [keptFrom_some hne]
    refine congrArg before.drop ?_
    have hfind := (List.findIdx?_eq_some_iff_findIdx_eq.mp hbef).2
    simp only [Option.some_inj] at hfind
    exact hfind
  | none =>
    have hnot : ∀ entry ∈ before, entry.id ≠ id := by
      intro entry hent heq
      have hno := List.findIdx?_eq_none_iff.mp hbef entry hent
      exact of_decide_eq_false hno (congrArg some heq)
    rw [keptFrom_eq_nil before hnot, Option.none_or, List.findIdx?_cons, haft]
    by_cases hself : some compaction.id = some id
    · rw [if_pos (decide_eq_true hself)]
      refine ⟨by dsimp only [Option.map]; omega, (drop_eq_nil_of_le ?_).symm⟩
      dsimp only [Option.map]
      omega
    · rw [if_neg (by simpa using hself)]
      exact ⟨Nat.le_refl _, (drop_eq_nil_of_le (Nat.le_succ _)).symm⟩

theorem lastReplacement_eq_none (h : SummaryCheckpoints path) : lastReplacement path = none := by
  induction path with
  | nil => rfl
  | cons entry path ih =>
    rw [lastReplacement, ih fun entry hent => h entry (mem_cons_of_mem _ hent)]
    dsimp only
    rw [Option.map_eq_none_iff, SessionEntry.compaction?]
    split
    · exact (h entry (mem_cons_self ..) _ ‹_›).2.2
    · rfl

theorem contextMessages_eq_flatMap (h : SummaryCheckpoints path) :
    contextMessages path = (contextEntriesOf path).flatMap sessionEntryToContextMessages := by
  rw [contextMessages, lastReplacement_eq_none h]

theorem exists_compactionData (h : compaction.isCompaction = true) : ∃ data, compaction.body = .compaction data := by
  rw [SessionEntry.isCompaction, SessionEntry.compaction?] at h
  split at h
  · exact ⟨_, ‹_›⟩
  · exact absurd h Bool.false_ne_true

theorem getElem?_lastCompactionIndex (path : List SessionEntry) :
    (lastCompactionIndex path).bind (path[·]?) = latestCompaction path := by
  rcases latestCompaction_cases path with ⟨hlat, hidx⟩ | ⟨before, compaction, after, hpath, -, hlat, hidx⟩
  · rw [hlat, hidx]
    rfl
  · rw [hlat, hidx, Option.bind_some, hpath, List.getElem?_append_right (Nat.le_refl _), Nat.sub_self,
      List.getElem?_cons_zero]

theorem filter_ne_of_notMem {entries : List SessionEntry} (h : compaction ∉ entries) :
    entries.filter (some · ≠ some compaction) = entries := by
  refine filter_eq_self.mpr fun entry hent => decide_eq_true fun heq => h ?_
  rw [← Option.some_inj.mp heq]
  exact hent

/-- **The messages in the context** are those that would be collected for all active entries. -/
theorem contextMessages_eq_active (hpath : IsPath path) (hcheckpoints : SummaryCheckpoints path)
    (hearlier : KeepsEarlier path) :
    contextMessages path = collectSourceMessages path (boundaryStart path (lastCompactionIndex path)) path.length
        (lastCompactionIndex path) := by
  have hnd := nodup_of_distinct hpath.distinct
  rw [contextMessages_eq_flatMap hcheckpoints,
    collectSourceMessages_eq hnd _ boundaryStart_le (Nat.le_refl _), getElem?_lastCompactionIndex, slice, take_length]
  rcases latestCompaction_cases path with ⟨hlat, hidx⟩ | ⟨before, compaction, after, heq, hcom, hlat, hidx⟩
  · have hall : path.filter (some · ≠ none) = path :=
      filter_eq_self.mpr fun entry _ => decide_eq_true (Option.some_ne_none entry)
    rw [hlat, hidx, contextEntriesOf, show (path.filter SessionEntry.isCompaction).getLast? = none from hlat,
      boundaryStart, drop_zero, hall]
    rfl
  · obtain ⟨data, hbody⟩ := exists_compactionData hcom
    have hmem : compaction ∈ path := by
      rw [heq]
      exact mem_append_right _ (mem_cons_self ..)
    obtain ⟨id, hid⟩ := Option.isSome_iff_exists.mp (hcheckpoints compaction hmem data hbody).2.1
    obtain ⟨hle, hkept⟩ := boundaryStart_spec heq
      (fun entry hent => ne_empty_of_isNonBlank (hpath.nonBlank entry hent)) hbody hid
      (hearlier before compaction after data id heq hlat hbody hid)
    have hfst : compaction.compaction?.bind (·.firstKeptEntryId) = some id := by
      rw [SessionEntry.compaction?, hbody]
      exact hid
    rw [heq] at hnd
    obtain ⟨-, hnod, hdisj⟩ := nodup_append.mp hnd
    have hbef : compaction ∉ before := fun h => hdisj compaction h compaction (mem_cons_self ..) rfl
    have haft : compaction ∉ after := (nodup_cons.mp hnod).1
    rw [contextEntriesOf_eq hpath.distinct heq hlat, hfst, hkept, hlat, hidx]
    generalize boundaryStart path (some before.length) = start at hle
    have hrest : ((compaction :: after).drop (start - before.length)).filter (some · ≠ some compaction) = after := by
      rcases Nat.le_or_eq_of_le_succ hle with hle | hsucc
      · rw [Nat.sub_eq_zero_of_le hle, drop_zero, filter_cons_of_neg (by simp), filter_ne_of_notMem haft]
      · rw [hsucc, Nat.succ_sub (Nat.le_refl _), Nat.sub_self, drop_succ_cons, drop_zero, filter_ne_of_notMem haft]
    rw [heq, drop_append, filter_append, hrest,
      filter_ne_of_notMem fun h => hbef (mem_of_mem_drop h), cons_append, flatMap_cons]
    rfl

/-! ### The preparation -/

variable {J : JsonText}

theorem findCutPoint_ge {entries : List SessionEntry} {startIndex endIndex : ℕ} {keepRecentTokens : ℚ} :
    startIndex ≤ (findCutPoint J entries startIndex endIndex keepRecentTokens).firstKeptEntryIndex := by
  rw [findCutPoint]
  split
  · exact Nat.le_refl _
  · exact (absorbLoop_spec _).1

/-- The first kept entry and the source prefix of a preparation. -/
theorem preparationAt_some {settings : CompactionSettings} {previous : Option ℕ} {start : ℕ} {tokensBefore : ℚ}
    {cut : CutPointResult} {prep : CompactionPreparation}
    (h : preparationAt path settings previous start tokensBefore cut = some prep) :
    ∃ kept, path[cut.firstKeptEntryIndex]? = some kept ∧ prep.firstKeptEntryId = kept.id ∧
      sourcePrefix prep = collectSourceMessages path start cut.firstKeptEntryIndex previous := by
  rw [preparationAt] at h
  split at h
  · exact absurd h.symm (Option.some_ne_none _)
  · rename_i kept hkept
    have hid : ¬ kept.id = "" := by
      intro hid
      rw [if_pos hid] at h
      exact Option.some_ne_none _ h.symm
    rw [if_neg hid] at h
    obtain ⟨-, hprep⟩ := Option.ite_none_left_eq_some.mp h
    refine ⟨kept, hkept, ?_, ?_⟩
    · rw [← Option.some_inj.mp hprep]
    · rw [← Option.some_inj.mp hprep, sourcePrefix]
      by_cases hspl : cut.isSplitTurn = true
      · dsimp only
        rw [if_pos hspl, if_pos hspl]
      · dsimp only
        rw [if_neg hspl, if_neg hspl]

theorem dropWhile_id_eq_drop (hdst : (path.map (·.id)).Nodup) {i : ℕ} {entry : SessionEntry}
    (hi : path[i]? = some entry) : path.dropWhile (·.id ≠ entry.id) = path.drop i := by
  obtain ⟨hlt, hget⟩ := List.getElem?_eq_some_iff.mp hi
  have hspl : path = path.take i ++ entry :: path.drop (i + 1) := by
    rw [← hget, ← drop_eq_getElem_cons hlt, take_append_drop]
  have hbef : ∀ other ∈ path.take i, decide (other.id ≠ entry.id) = true := by
    intro other hoth
    refine decide_eq_true fun heq => ?_
    rw [hspl, map_append, map_cons] at hdst
    exact (nodup_append.mp hdst).2.2 _ (mem_map_of_mem hoth) _ (mem_cons_self ..) heq
  have hdrop : path.drop i = entry :: path.drop (i + 1) := by
    rw [drop_eq_getElem_cons hlt, hget]
  conv_lhs => rw [hspl]
  rw [dropWhile_append_of_pos hbef, dropWhile_cons_of_neg (by simp), hdrop]

theorem collectSourceMessages_append (hdst : (path.map (·.id)).Nodup) {start cut : ℕ} {kept : SessionEntry}
    (hpre : start ≤ cut) (hkept : path[cut]? = some kept) :
    collectSourceMessages path start path.length (lastCompactionIndex path) =
      collectSourceMessages path start cut (lastCompactionIndex path) ++ keptMessages path kept.id := by
  have hnd := nodup_of_distinct hdst
  have hcut : cut < path.length := (List.getElem?_eq_some_iff.mp hkept).1
  have hsli : slice path start path.length = slice path start cut ++ path.drop cut := by
    rw [slice, slice, take_length]
    conv_lhs => rw [← take_append_drop cut path]
    rw [drop_append_of_le_length (by rw [length_take]; omega)]
  rw [collectSourceMessages_eq hnd _ (hpre.trans hcut.le) (Nat.le_refl _),
    collectSourceMessages_eq hnd _ hpre hcut.le, keptMessages, dropWhile_id_eq_drop hdst hkept, hsli,
    getElem?_lastCompactionIndex, filter_append, flatMap_append, append_assoc]

theorem mem_contextMessages_of_kept {checkpoint : SessionEntry} {data : CompactionData} {id : String}
    (hcheckpoints : SummaryCheckpoints path) (hpath : IsPath (path ++ [checkpoint]))
    (hbody : checkpoint.body = .compaction data) (hid : data.firstKeptEntryId = some id)
    (hsum : data.summary.isSome = true) (hhis : data.replacementHistory = none) (hne : id ≠ "")
    {message : SessionMessage} (h : message ∈ keptMessages path id) :
    message ∈ contextMessages (path ++ [checkpoint]) := by
  have hcheckpoints' : SummaryCheckpoints (path ++ [checkpoint]) := by
    intro entry hent data' hbody'
    rcases mem_append.mp hent with hold | hnew
    · exact hcheckpoints entry hold data' hbody'
    · rw [mem_singleton.mp hnew, hbody, EntryBody.compaction.injEq] at hbody'
      rw [← hbody']
      exact ⟨hsum, by rw [hid]; rfl, hhis⟩
  have hcom : checkpoint.compaction? = some data := by
    rw [SessionEntry.compaction?, hbody]
  have hlat : latestCompaction (path ++ [checkpoint]) = some checkpoint := by
    rw [latestCompaction_concat, SessionEntry.isCompaction, hcom]
    rfl
  rw [contextMessages_eq_flatMap hcheckpoints', contextEntriesOf_eq hpath.distinct rfl hlat, hcom,
    Option.bind_some, hid, keptFrom, if_neg hne, append_nil, flatMap_cons]
  obtain ⟨entry, hent, hmsg⟩ := mem_flatMap.mp h
  refine mem_append_right _ (mem_flatMap.mpr ⟨entry, ?_, hmsg⟩)
  exact (mem_filter.mp hent).1

/-- **The context before a compaction** is what `prepareCompaction` gives to the summary followed by what it
keeps; a message that leaves the context with the new checkpoint was given to the summary. -/
theorem prepareCompaction_context (J : JsonText) (path : List SessionEntry) (settings : CompactionSettings)
    (preparation : CompactionPreparation) (hpath : IsPath path) (hcheckpoints : SummaryCheckpoints path)
    (hearlier : KeepsEarlier path) (h : prepareCompaction J path settings = .ok (some preparation)) :
    ∃ context, buildSessionContext path = .ok context ∧
      context.messages = sourcePrefix preparation ++ keptMessages path preparation.firstKeptEntryId ∧
      ∀ checkpoint data, IsPath (path ++ [checkpoint]) → checkpoint.body = .compaction data →
        data.firstKeptEntryId = some preparation.firstKeptEntryId → data.summary.isSome = true →
        data.replacementHistory = none → ∃ next, buildSessionContext (path ++ [checkpoint]) = .ok next ∧
          ∀ message ∈ context.messages, message ∉ next.messages → message ∈ sourcePrefix preparation := by
  refine ⟨_, buildSessionContext_of_isPath hpath, ?_⟩
  have hend : path.getLast?.any SessionEntry.isCompaction = false := by
    rw [Bool.eq_false_iff]
    intro hend
    rw [prepareCompaction, if_pos hend] at h
    exact Option.some_ne_none _ (Except.ok.inj h).symm
  rw [prepareCompaction_of_isPath hpath hend] at h
  obtain ⟨kept, hkept, hid, hsrc⟩ := preparationAt_some (Except.ok.inj h)
  have hmsgs : contextMessages path = sourcePrefix preparation ++ keptMessages path preparation.firstKeptEntryId := by
    rw [hid, hsrc, contextMessages_eq_active hpath hcheckpoints hearlier]
    exact collectSourceMessages_append hpath.distinct findCutPoint_ge hkept
  refine ⟨hmsgs, fun checkpoint data hnext hbody hfst hsum hhis =>
    ⟨_, buildSessionContext_of_isPath hnext, fun message hmem hleft => ?_⟩⟩
  dsimp only at hmem hleft
  rw [hmsgs] at hmem
  rcases mem_append.mp hmem with hsummarised | hretained
  · exact hsummarised
  · refine absurd (mem_contextMessages_of_kept hcheckpoints hnext hbody hfst hsum hhis ?_ hretained) hleft
    rw [hid]
    exact ne_empty_of_isNonBlank (hpath.nonBlank kept (mem_of_getElem? hkept))

end

/-! ### Two paths -/

/-- Two questions, a checkpoint that keeps the entry with an id, and three questions. -/
def checkpointPath (firstKeptEntryId : String) : List SessionEntry :=
  [⟨"1", none, .message (.user (some (.text "one")))⟩, ⟨"2", some "1", .message (.user (some (.text "two")))⟩,
    ⟨"3", some "2", .compaction { summary := some "so far", firstKeptEntryId := some firstKeptEntryId }⟩,
    ⟨"4", some "3", .message (.user (some (.text "four")))⟩, ⟨"5", some "4", .message (.user (some (.text "five")))⟩,
    ⟨"6", some "5", .message (.user (some (.text "six")))⟩]

theorem isPath_checkpointPath (id : String) : IsPath (checkpointPath id) := by
  have hids : (checkpointPath id).map (·.id) = ["1", "2", "3", "4", "5", "6"] := rfl
  refine ⟨?_, by rw [hids]; decide, ?_, by simp [checkpointPath]⟩
  · intro entry hent
    have hid := mem_map_of_mem (f := (·.id)) hent
    rw [hids] at hid
    exact (show ∀ id ∈ ["1", "2", "3", "4", "5", "6"], SessionMigration.isNonBlank id = true by decide) _ hid
  rintro entry hent parentId hpar
  rw [← Option.some_inj.mp hent] at hpar
  exact absurd hpar.symm (Option.some_ne_none _)

theorem summaryCheckpoints_checkpointPath (id : String) : SummaryCheckpoints (checkpointPath id) := by
  intro entry hent data hbody
  simp only [checkpointPath, mem_cons, not_mem_nil, or_false] at hent
  rcases hent with rfl | rfl | rfl | rfl | rfl | rfl
  case inr.inr.inl =>
    rw [← EntryBody.compaction.inj hbody]
    exact ⟨rfl, rfl, rfl⟩
  all_goals exact EntryBody.noConfusion hbody

/-- The preparation with a budget of one token. -/
noncomputable def preparationOf (path : List SessionEntry) : Option CompactionPreparation :=
  (prepareCompaction JsonText.printed path { keepRecentTokens := 1 }).toOption.join

theorem preparationOf_eq_some {path : List SessionEntry} {prep : CompactionPreparation}
    (h : preparationOf path = some prep) :
    prepareCompaction JsonText.printed path { keepRecentTokens := 1 } = .ok (some prep) := by
  rw [preparationOf] at h
  cases hres : prepareCompaction JsonText.printed path { keepRecentTokens := 1 } with
  | error message =>
    rw [hres] at h
    exact absurd h.symm (Option.some_ne_none _)
  | ok result =>
    rw [hres] at h
    exact congrArg Except.ok h

theorem keepsEarlier_checkpointPath : KeepsEarlier (checkpointPath "2") := by
  intro before compaction after data id hpath hlat hbody hid
  have hcom : compaction = ⟨"3", some "2", .compaction { summary := some "so far", firstKeptEntryId := some "2" }⟩ :=
    (Option.some_inj.mp hlat).symm
  rw [hcom] at hbody
  rw [← EntryBody.compaction.inj hbody, Option.some_inj] at hid
  have hids : ["1", "2", "3", "4", "5", "6"] = before.map (·.id) ++ "3" :: after.map (·.id) := by
    have hmap := congrArg (List.map (·.id)) hpath
    rw [hcom, map_append, map_cons] at hmap
    exact hmap
  have hord : ["1", "2", "3", "4", "5", "6"].Pairwise fun id other => ¬ (id = "3" ∧ other = "2") := by decide
  rw [hids, pairwise_append, pairwise_cons] at hord
  intro haft
  exact hord.2.1.1 id haft ⟨rfl, hid.symm⟩

/-- The checkpoint and the questions behind it. -/
theorem prepareCompaction_context_checkpointPath :
    ∃ preparation, preparationOf (checkpointPath "2") = some preparation ∧
      ∃ context, buildSessionContext (checkpointPath "2") = .ok context ∧
        context.messages = sourcePrefix preparation ++ keptMessages (checkpointPath "2") preparation.firstKeptEntryId := by
  obtain ⟨preparation, hprep⟩ := Option.isSome_iff_exists.mp
    (show (preparationOf (checkpointPath "2")).isSome = true by decide +kernel)
  obtain ⟨context, hcon, hmsgs, -⟩ := prepareCompaction_context JsonText.printed (checkpointPath "2") _
    preparation (isPath_checkpointPath _) (summaryCheckpoints_checkpointPath _) keepsEarlier_checkpointPath
    (preparationOf_eq_some hprep)
  exact ⟨preparation, hprep, context, hcon, hmsgs⟩

/-- **A checkpoint that keeps a later entry**: the question between it and that entry is in the context, but
neither given to the summary nor kept. -/
theorem prepareCompaction_forgets :
    ¬ ∀ (path : List SessionEntry) (settings : CompactionSettings) (preparation : CompactionPreparation),
      IsPath path → SummaryCheckpoints path → prepareCompaction JsonText.printed path settings = .ok (some preparation) →
        ∀ context, buildSessionContext path = .ok context →
          context.messages = sourcePrefix preparation ++ keptMessages path preparation.firstKeptEntryId := by
  intro hall
  obtain ⟨preparation, hprep⟩ := Option.isSome_iff_exists.mp
    (show (preparationOf (checkpointPath "5")).isSome = true by decide +kernel)
  have hmsgs := hall _ _ preparation (isPath_checkpointPath "5") (summaryCheckpoints_checkpointPath "5")
    (preparationOf_eq_some hprep) _ (buildSessionContext_of_isPath (isPath_checkpointPath "5"))
  have hleng : (preparationOf (checkpointPath "5")).map (fun preparation =>
      (sourcePrefix preparation ++ keptMessages (checkpointPath "5") preparation.firstKeptEntryId).length) =
        some 3 := by decide +kernel
  rw [hprep, Option.map_some, ← hmsgs] at hleng
  exact absurd hleng (by decide)

end Compaction
end EasyPi.CodingAgent
