/-
# The gates of a candidate

What each gate failure of `evaluateCandidateQuality`
(`packages/subagent/src/quality-model.ts`) says about the tasks of the candidate,
and that the order in which the tasks are given does not matter. Tasks have
distinct ids, so counting covered ids is looking at each task.
-/
import EasyPi.Lib.Sorted
import EasyPi.Subagent.Quality

namespace EasyPi.Subagent

open List

/-! ### The order of texts -/

def charUnits (c : Char) : List ℕ :=
  if c.toNat < 65536 then [c.toNat]
  else [55296 + (c.toNat - 65536) / 1024, 56320 + (c.toNat - 65536) % 1024]

theorem utf16_eq (s : String) : utf16 s = s.toList.flatMap charUnits := rfl

theorem toNat_not_surrogate (c : Char) : c.toNat < 55296 ∨ 57343 < c.toNat ∧ c.toNat < 1114112 := c.valid

theorem charUnits_append_inj {c d : Char} {l m : List ℕ} (h : charUnits c ++ l = charUnits d ++ m) : c = d ∧ l = m := by
  have hc := toNat_not_surrogate c
  have hd := toNat_not_surrogate d
  unfold charUnits at h
  split at h <;> split at h <;>
    simp only [cons_append, nil_append, List.cons.injEq] at h
  · exact ⟨Char.toNat_inj.mp h.1, h.2⟩
  · omega
  · omega
  · exact ⟨Char.toNat_inj.mp (by omega), h.2.2⟩

theorem charUnits_ne_nil (c : Char) : charUnits c ≠ [] := by
  unfold charUnits
  split <;> simp

theorem utf16_injective {a b : String} (h : utf16 a = utf16 b) : a = b := by
  rw [utf16_eq, utf16_eq] at h
  rw [← String.toList_inj]
  generalize a.toList = l at h
  generalize b.toList = m at h
  induction l generalizing m with
  | nil =>
    cases m with
    | nil => rfl
    | cons d m => simp [charUnits_ne_nil] at h
  | cons c l ih =>
    cases m with
    | nil => simp [charUnits_ne_nil] at h
    | cons d m =>
      rw [flatMap_cons, flatMap_cons] at h
      obtain ⟨rfl, hrest⟩ := charUnits_append_inj h
      rw [ih m hrest]

theorem textLE_antisymm {a b : String} (hab : textLE a b) (hba : textLE b a) : a = b := by
  simp only [textLE, decide_eq_true_eq] at hab hba
  exact utf16_injective (le_antisymm hab hba)

theorem textLE_trans {a b c : String} (hab : textLE a b = true) (hbc : textLE b c = true) : textLE a c = true := by
  rw [textLE, decide_eq_true_eq] at hab hbc ⊢
  exact le_trans hab hbc

theorem textLE_total (a b : String) : textLE a b = true ∨ textLE b a = true := by
  rw [textLE, textLE, decide_eq_true_eq, decide_eq_true_eq]
  exact le_total _ _

/-- The tasks of a candidate in the order of their ids. -/
def sortById (tasks : List QualityTask) : List QualityTask :=
  tasks.mergeSort fun left right => textLE left.contract.id right.contract.id

theorem sortById_perm (tasks : List QualityTask) : (sortById tasks).Perm tasks := mergeSort_perm ..

theorem sortById_eq {tasks tasks' : List QualityTask} (hp : tasks.Perm tasks')
    (hn : (tasks.map (·.contract.id)).Nodup) : sortById tasks = sortById tasks' := by
  have hsrt : ∀ tasks : List QualityTask, (sortById tasks).Pairwise fun left right =>
      textLE left.contract.id right.contract.id := by
    intro tasks
    refine pairwise_mergeSort (fun a b c hab hbc => ?_) (fun a b => ?_) tasks
    · simp only [textLE, decide_eq_true_eq] at hab hbc ⊢
      exact le_trans hab hbc
    · simp only [textLE, Bool.or_eq_true, decide_eq_true_eq]
      exact le_total _ _
  refine List.Perm.eq_of_pairwise (fun a b ha hb hab hba => ?_) (hsrt tasks) (hsrt tasks')
    ((sortById_perm tasks).trans (hp.trans (sortById_perm tasks').symm))
  refine inj_on_of_nodup_map hn ((sortById_perm tasks).mem_iff.mp ha) ?_
    (textLE_antisymm hab hba)
  exact hp.mem_iff.mpr ((sortById_perm tasks').mem_iff.mp hb)

/-- **The order of the tasks does not matter.** -/
theorem evaluateCandidateQuality_perm {tasks tasks' : List QualityTask} (hp : tasks.Perm tasks')
    (hn : (tasks.map (·.contract.id)).Nodup) (pinned : List String) :
    evaluateCandidateQuality tasks pinned = evaluateCandidateQuality tasks' pinned := by
  have h := sortById_eq hp hn
  unfold sortById at h
  unfold evaluateCandidateQuality
  rw [h]

theorem evaluateCandidateQuality_pinned {tasks : List QualityTask} {pinned pinned' : List String}
    (h : ∀ item ∈ tasks, item.contract.role = .writer → (item.contract.id ∈ pinned ↔ item.contract.id ∈ pinned')) :
    evaluateCandidateQuality tasks pinned = evaluateCandidateQuality tasks pinned' := by
  have hfil : ((((sortById tasks).filter (·.contract.role = .writer)).map
      (·.contract.id)).filter (· ∈ pinned)) = ((((sortById tasks).filter
      (·.contract.role = .writer)).map (·.contract.id)).filter (· ∈ pinned')) := by
    refine filter_congr fun taskId hid => ?_
    simp only [mem_map, mem_filter, decide_eq_true_eq] at hid
    obtain ⟨item, ⟨hitem, hrole⟩, rfl⟩ := hid
    exact decide_eq_decide.mpr (h item ((sortById_perm tasks).mem_iff.mp hitem) hrole)
  unfold sortById at hfil
  unfold evaluateCandidateQuality
  simp only [hfil]

/-! ### What a gate failure says -/

/-- A review that counts: it accepts, names evidence, and saw the commits of all writers. -/
def QualityTask.Reviews (item : QualityTask) (tasks : List QualityTask) : Prop :=
  item.acceptedReview ∧ item.artifact.evidence ≠ [] ∧ ∃ closure, item.artifact.quality.review.closure? = some closure ∧
      ∀ writer ∈ tasks, writer.contract.role = .writer → ∀ commit ∈ writer.artifact.commit?,
        provenanceKey ⟨writer.artifact.taskId, writer.artifact.artifactId, commit⟩ ∈ closure.map provenanceKey

def GateFailure.Occurs (tasks : List QualityTask) (pinned : List String) : GateFailure → Prop
  | semanticOutcome => ∃ item ∈ tasks, item.artifact.quality.semanticOutcome ≠ .accepted
  | pathAudit => ∃ item ∈ tasks, item.contract.role = .writer ∧ item.artifact.quality.pathAudit ≠ .passed
  | validationCoverage => ∃ item ∈ tasks, item.contract.role = .writer ∧
      item.contract.validationCommandIds ≠ [] ∧ item.validated = false
  | commitPin => ∃ item ∈ tasks, item.contract.role = .writer ∧ item.contract.id ∉ pinned
  | reviewVerdict => ∃ item ∈ tasks, item.contract.role = .reviewer ∧
      item.artifact.quality.review.status? ≠ some .accepted
  | reviewCoverage => (∃ item ∈ tasks, item.contract.role = .reviewer) ∧
      ∀ item ∈ tasks, item.contract.role = .reviewer → ¬ item.Reviews tasks
  | dagIncomplete => False

theorem coverage_full_iff {l : List QualityTask} (hn : (l.map (·.contract.id)).Nodup) (p : QualityTask → Bool) :
    coverage (l.map (·.contract.id)) ((l.filter p).map (·.contract.id)) = .full ↔ l ≠ [] ∧ ∀ item ∈ l, p item := by
  have hmem : ∀ item ∈ l, item.contract.id ∈ (l.filter p).map (·.contract.id) ↔ p item := by
    intro item hitem
    simp only [mem_map, mem_filter]
    constructor
    · rintro ⟨other, ⟨hoth, hp⟩, hid⟩
      rwa [← inj_on_of_nodup_map hn hoth hitem hid]
    · exact fun hp => ⟨item, ⟨hitem, hp⟩, rfl⟩
  have hall : ((l.map (·.contract.id)).filter
      (· ∈ (l.filter p).map (·.contract.id))).length = (l.map (·.contract.id)).length ↔ ∀ item ∈ l, p item := by
    rw [length_filter_eq_length_iff, forall_mem_map]
    simp only [decide_eq_true_eq]
    exact forall₂_congr hmem
  rw [← hall]
  unfold coverage
  cases l with
  | nil => simp
  | cons item l =>
    have hpos : 0 < ((item :: l).map (·.contract.id)).length := by simp
    generalize ((item :: l).map (·.contract.id)).length = n at hpos ⊢
    generalize (((item :: l).map (·.contract.id)).filter _).length = count
    simp only [ne_eq, reduceCtorEq, not_false_eq_true, true_and]
    rw [if_neg (by omega)]
    split
    · simp only [reduceCtorEq, false_iff]
      omega
    · split
      · simpa
      · simpa

theorem provenanceMap_spec (items : List WriterCommitProvenance) (m : OrdMap String WriterCommitProvenance)
    (hm : ∀ key value, m.get? key = some value → provenanceKey value = key) :
    (∀ key value, (items.foldl (fun unique item => unique.set (provenanceKey item) item) m).get? key =
      some value → provenanceKey value = key) ∧
    ∀ key, (items.foldl (fun unique item => unique.set (provenanceKey item) item) m).has key ↔
      m.has key ∨ key ∈ items.map provenanceKey := by
  induction items generalizing m with
  | nil => exact ⟨hm, fun key => by simp⟩
  | cons item items ih =>
    obtain ⟨h1, h2⟩ := ih (m.set (provenanceKey item) item) (by
      intro key value h
      rw [OrdMap.get?_set] at h
      split at h
      · cases h
        exact Eq.symm ‹_›
      · exact hm key value h)
    refine ⟨h1, fun key => ?_⟩
    rw [foldl_cons, h2, OrdMap.has_set]
    simp only [Bool.or_eq_true, decide_eq_true_eq, map_cons, mem_cons]
    tauto

theorem mem_writerCommitClosure_keys {artifacts : List TaskArtifact} {key : String} :
    key ∈ (writerCommitClosure artifacts).map provenanceKey ↔ ∃ artifact ∈ artifacts, ∃ commit ∈ artifact.commit?,
        provenanceKey ⟨artifact.taskId, artifact.artifactId, commit⟩ = key := by
  obtain ⟨hkey, hhas⟩ := provenanceMap_spec (artifacts.filterMap fun artifact =>
    artifact.commit?.map fun commit => ⟨artifact.taskId, artifact.artifactId, commit⟩) ∅ (by simp)
  have hval : ∀ m : OrdMap String WriterCommitProvenance,
      (∀ key value, m.get? key = some value → provenanceKey value = key) →
      (key ∈ (m.values.mergeSort provenanceLE).map provenanceKey ↔ m.has key) := by
    intro m hm
    rw [OrdMap.has_iff]
    simp only [mem_map, mem_mergeSort, OrdMap.values, Prod.exists, exists_eq_right]
    constructor
    · rintro ⟨value, ⟨k, hk⟩, rfl⟩
      have hget := (m.get?_eq_some_iff k value).mpr hk
      exact ⟨value, hm k value hget ▸ hget⟩
    · rintro ⟨value, hget⟩
      exact ⟨value, ⟨key, (m.get?_eq_some_iff key value).mp hget⟩, hm key value hget⟩
  unfold writerCommitClosure provenanceMap
  rw [hval _ hkey, hhas]
  simp only [OrdMap.has, OrdMap.get?_empty, Option.isSome_none, Bool.false_eq_true, false_or,
    mem_map, mem_filterMap, Option.map_eq_some_iff]
  constructor
  · rintro ⟨_, ⟨artifact, hart, commit, hcom, rfl⟩, rfl⟩
    exact ⟨artifact, hart, commit, hcom, rfl⟩
  · rintro ⟨artifact, hart, commit, hcom, rfl⟩
    exact ⟨_, ⟨artifact, hart, commit, hcom, rfl⟩, rfl⟩

section Occurs

variable {tasks : List QualityTask} {pinned : List String}

/-- The writers and the reviewers of a candidate, in the order of their ids. -/
def withRole (role : Role) (tasks : List QualityTask) : List QualityTask :=
  (sortById tasks).filter (·.contract.role = role)

theorem mem_withRole {role : Role} {item : QualityTask} :
    item ∈ withRole role tasks ↔ item ∈ tasks ∧ item.contract.role = role := by
  simp [withRole, (sortById_perm tasks).mem_iff]

theorem withRole_nodup (hn : (tasks.map (·.contract.id)).Nodup) (role : Role)
    (p : QualityTask → Bool) : (((withRole role tasks).filter p).map (·.contract.id)).Nodup := by
  have hsub : ((withRole role tasks).filter p).Sublist (sortById tasks) := filter_sublist.trans filter_sublist
  refine (hsub.map _).nodup ?_
  exact ((sortById_perm tasks).map _).nodup_iff.mpr hn

theorem uncovered_iff (hn : (tasks.map (·.contract.id)).Nodup) (required p : QualityTask → Bool) :
    (0 < ((withRole .writer tasks).filter required).length ∧
      coverage (((withRole .writer tasks).filter required).map (·.contract.id))
        ((((withRole .writer tasks).filter required).filter p).map (·.contract.id)) ≠ .full) ↔
      ∃ item ∈ tasks, item.contract.role = .writer ∧ required item ∧ p item = false := by
  rw [ne_eq, coverage_full_iff (withRole_nodup hn .writer required), length_pos_iff]
  simp only [not_and, not_forall, Bool.not_eq_true, mem_filter, mem_withRole, exists_prop]
  constructor
  · rintro ⟨hne, h⟩
    obtain ⟨item, ⟨⟨hitem, hrole⟩, hreq⟩, hp⟩ := h hne
    exact ⟨item, hitem, hrole, hreq, hp⟩
  · rintro ⟨item, hitem, hrole, hreq, hp⟩
    refine ⟨ne_nil_of_mem (a := item) ?_, fun _ => ⟨item, ⟨⟨hitem, hrole⟩, hreq⟩, hp⟩⟩
    exact mem_filter.mpr ⟨mem_withRole.mpr ⟨hitem, hrole⟩, hreq⟩

theorem aggregateOutcome_ne_accepted {outcomes : List (Option TaskOutcome)} :
    aggregateOutcome outcomes ≠ .accepted ↔ ∃ outcome ∈ outcomes, outcome ≠ some .accepted := by
  unfold aggregateOutcome
  split
  · rename_i h
    simp only [any_eq_true, decide_eq_true_eq] at h
    obtain ⟨outcome, ho, rfl⟩ := h
    exact ⟨fun _ => ⟨_, ho, by simp⟩, fun _ => by simp⟩
  · split
    · rename_i h
      simp only [any_eq_true, decide_eq_true_eq] at h
      exact ⟨fun _ => h, fun _ => by simp⟩
    · rename_i h
      simp only [any_eq_true, decide_eq_true_eq] at h
      exact ⟨fun h => absurd rfl h, fun h' => absurd h' h⟩

theorem coversAll_iff {item : QualityTask} :
    item.coversAll (writerCommitClosure ((withRole .writer tasks).map (·.artifact))) ↔
      ∃ closure, item.artifact.quality.review.closure? = some closure ∧
        ∀ writer ∈ tasks, writer.contract.role = .writer → ∀ commit ∈ writer.artifact.commit?,
          provenanceKey ⟨writer.artifact.taskId, writer.artifact.artifactId, commit⟩ ∈ closure.map provenanceKey := by
  unfold QualityTask.coversAll
  cases item.artifact.quality.review.closure? with
  | none => simp
  | some closure =>
    simp only [Option.some.injEq, exists_eq_left', all_eq_true, decide_eq_true_eq]
    have hkeys : (∀ value ∈ writerCommitClosure ((withRole .writer tasks).map (·.artifact)),
        provenanceKey value ∈ closure.map provenanceKey) ↔
        ∀ key ∈ (writerCommitClosure ((withRole .writer tasks).map (·.artifact))).map provenanceKey,
          key ∈ closure.map provenanceKey := by
      rw [forall_mem_map]
    rw [hkeys]
    constructor
    · intro h writer hw hrole commit hcom
      refine h _ (mem_writerCommitClosure_keys.mpr ⟨writer.artifact, ?_, commit, hcom, rfl⟩)
      exact mem_map_of_mem (mem_withRole.mpr ⟨hw, hrole⟩)
    · intro h key hkey
      obtain ⟨artifact, ha, commit, hcom, rfl⟩ := mem_writerCommitClosure_keys.mp hkey
      obtain ⟨writer, hw, rfl⟩ := mem_map.mp ha
      obtain ⟨hw, hrole⟩ := mem_withRole.mp hw
      exact h writer hw hrole commit hcom

theorem fullCoverage_iff : 0 < ((((withRole .reviewer tasks).filter (·.acceptedReview)).filter
      fun item => item.artifact.evidence ≠ []).filter (·.coversAll (writerCommitClosure
        ((withRole .writer tasks).map (·.artifact))))).length ↔
      ∃ item ∈ tasks, item.contract.role = .reviewer ∧ item.Reviews tasks := by
  rw [length_pos_iff_exists_mem]
  simp only [mem_filter, mem_withRole, decide_eq_true_eq, coversAll_iff, QualityTask.Reviews]
  constructor
  · rintro ⟨item, ⟨⟨⟨hitem, hrole⟩, hacc⟩, hevi⟩, hcov⟩
    exact ⟨item, hitem, hrole, hacc, hevi, hcov⟩
  · rintro ⟨item, hitem, hrole, hacc, hevi, hcov⟩
    exact ⟨item, ⟨⟨⟨hitem, hrole⟩, hacc⟩, hevi⟩, hcov⟩

theorem gateFailures_eq (tasks : List QualityTask) (pinned : List String) :
    (evaluateCandidateQuality tasks pinned).gateFailures = (if aggregateOutcome ((sortById tasks).map fun item =>
        some item.artifact.quality.semanticOutcome) ≠ .accepted then [.semanticOutcome] else []) ++
      (if 0 < (withRole .writer tasks).length ∧ coverage ((withRole .writer tasks).map
          (·.contract.id)) (((withRole .writer tasks).filter
            (·.artifact.quality.pathAudit = .passed)).map (·.contract.id)) ≠ .full then [.pathAudit] else []) ++
      (if 0 < ((withRole .writer tasks).filter fun item => item.contract.validationCommandIds ≠ []).length ∧
          coverage (((withRole .writer tasks).filter fun item =>
            item.contract.validationCommandIds ≠ []).map (·.contract.id)) ((((withRole .writer tasks).filter fun item =>
              item.contract.validationCommandIds ≠ []).filter (·.validated)).map (·.contract.id)) ≠ .full
        then [.validationCoverage] else []) ++
      (if 0 < (withRole .writer tasks).length ∧ coverage ((withRole .writer tasks).map
          (·.contract.id)) (((withRole .writer tasks).map (·.contract.id)).filter (· ∈ pinned)) ≠ .full
        then [.commitPin] else []) ++ (if 0 < (withRole .reviewer tasks).length ∧
          (if (withRole .reviewer tasks).length = 0 then none
            else some (aggregateOutcome ((withRole .reviewer tasks).map
              (·.artifact.quality.review.status?)))) ≠ some .accepted
        then [.reviewVerdict] else []) ++ (if 0 < (withRole .reviewer tasks).length ∧
          (if (withRole .reviewer tasks).length = 0 then Coverage.missing
            else if 0 < (((((withRole .reviewer tasks).filter (·.acceptedReview)).filter
              fun item => item.artifact.evidence ≠ []).filter (·.coversAll (writerCommitClosure
                ((withRole .writer tasks).map (·.artifact))))).map (·.contract.id)).length
              then .full else .partly) ≠ .full then [.reviewCoverage] else []) := rfl

/-- **A gate fails exactly on what it is about.** -/
theorem mem_gateFailures (hn : (tasks.map (·.contract.id)).Nodup) {failure : GateFailure} :
    failure ∈ (evaluateCandidateQuality tasks pinned).gateFailures ↔ failure.Occurs tasks pinned := by
  have hrev : 0 < (withRole .reviewer tasks).length ↔ ∃ item ∈ tasks, item.contract.role = .reviewer := by
    simp only [length_pos_iff_exists_mem, mem_withRole]
  have hall : ∀ l : List QualityTask, l = l.filter fun _ => true := fun l => by simp
  rw [gateFailures_eq]
  cases failure <;>
    simp only [mem_append, mem_ite_nil_right, mem_singleton, reduceCtorEq, and_false,
      false_or, or_false, and_true, GateFailure.Occurs]
  case semanticOutcome =>
    rw [aggregateOutcome_ne_accepted]
    simp [(sortById_perm tasks).mem_iff]
  case pathAudit =>
    rw [hall (withRole .writer tasks), uncovered_iff hn]
    simp
  case validationCoverage =>
    rw [uncovered_iff hn]
    simp
  case commitPin =>
    rw [filter_map, hall (withRole .writer tasks), uncovered_iff hn]
    simp
  case reviewVerdict =>
    rw [hrev]
    constructor
    · rintro ⟨hr, h⟩
      rw [if_neg (by rw [← hrev] at hr; omega), ne_eq, Option.some.injEq, ← ne_eq, aggregateOutcome_ne_accepted] at h
      simpa [mem_withRole, and_assoc] using h
    · rintro ⟨item, hitem, hrole, hsts⟩
      refine ⟨⟨item, hitem, hrole⟩, ?_⟩
      rw [if_neg (by have := hrev.mpr ⟨item, hitem, hrole⟩; omega), ne_eq, Option.some.injEq,
        ← ne_eq, aggregateOutcome_ne_accepted]
      exact ⟨_, mem_map_of_mem (mem_withRole.mpr ⟨hitem, hrole⟩), hsts⟩
  case reviewCoverage =>
    rw [length_map, hrev]
    refine and_congr_right fun hr => ?_
    rw [if_neg (by rw [← hrev] at hr; omega)]
    simp only [ne_eq, ite_eq_left_iff, reduceCtorEq, imp_false, not_not, fullCoverage_iff]
    push Not
    rfl

theorem gateFailures_nodup (tasks : List QualityTask) (pinned : List String) :
    (evaluateCandidateQuality tasks pinned).gateFailures.Nodup := by
  rw [gateFailures_eq]
  have hall : ([.semanticOutcome, .pathAudit, .validationCoverage, .commitPin, .reviewVerdict,
      .reviewCoverage] : List GateFailure).Nodup := by decide
  refine List.Sublist.nodup ?_ hall
  have hite : ∀ (c : Prop) [Decidable c] (failure : GateFailure), (if c then [failure] else []).Sublist [failure] := by
    intro c _ failure
    split <;> simp
  exact ((((((hite _ _).append (hite _ _)).append (hite _ _)).append (hite _ _)).append
    (hite _ _)).append (hite _ _))

theorem gatePassed_iff : (evaluateCandidateQuality tasks pinned).gatePassed = true ↔
    (evaluateCandidateQuality tasks pinned).gateFailures = [] := by
  rw [← length_eq_zero_iff]
  exact decide_eq_true_iff

end Occurs

end EasyPi.Subagent
