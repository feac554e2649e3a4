/-
# The view of the dependencies: bounds and accounts

Every dependency in the view is the view of its artifact without details, with some summary length, to
which some of its critical and some of its other details have been added in their order
(`projectDependencyArtifacts_spec`). What is shown and what is left out follow from that.
-/
import Mathlib.Algebra.Order.BigOperators.Group.List
import Mathlib.Data.String.Basic
import EasyPi.Lib.Pointwise
import EasyPi.Subagent.DependencyView

namespace EasyPi.Subagent

open List
namespace Dependencies

/-! ### What is shown and what is left out -/

inductive Category where
  | evidence | changedPaths | controllerValidations | childVerifications | risks
  deriving DecidableEq

def ArtifactView.shown (view : ArtifactView) : Category → ℕ
  | .evidence => view.evidence.length
  | .changedPaths => view.changedPaths.length
  | .controllerValidations => view.controllerValidations.length
  | .childVerifications => view.childVerifications.length
  | .risks => view.risks.length

def OmittedView.count (view : OmittedView) : Category → ℤ
  | .evidence => view.evidence
  | .changedPaths => view.changedPaths
  | .controllerValidations => view.controllerValidations
  | .childVerifications => view.childVerifications
  | .risks => view.risks

def Artifact.total (artifact : Artifact) : Category → ℕ
  | .evidence => artifact.handoff.evidence.length
  | .changedPaths => (Dependencies.changedPaths artifact).length
  | .controllerValidations => artifact.validations.length
  | .childVerifications => artifact.handoff.verification.length
  | .risks => artifact.handoff.risks.length

attribute [local simp] Artifact.total

def OptionalAddition.category : OptionalAddition → Category
  | .evidence _ => .evidence
  | .changedPath _ => .changedPaths
  | .validation _ => .controllerValidations
  | .childVerification _ => .childVerifications
  | .risk _ => .risks

variable (category : Category)

def countOf (additions : List OptionalAddition) : ℕ :=
  (additions.filter (·.category = category)).length

def ArtifactView.addAll (view : ArtifactView) (additions : List OptionalAddition) : ArtifactView :=
  additions.foldl ArtifactView.add view

section
variable {view : ArtifactView} {artifact : Artifact} {additions : List OptionalAddition} (addition : OptionalAddition)

theorem addAll_cons : view.addAll (addition :: additions) = (view.add addition).addAll additions := rfl

theorem addAll_append (more : List OptionalAddition) :
    view.addAll (additions ++ more) = (view.addAll additions).addAll more := foldl_append ..

variable (category : Category)

theorem countOf_cons (addition : OptionalAddition) : countOf category (addition :: additions) =
      countOf category additions + if addition.category = category then 1 else 0 := by
  rw [countOf]
  by_cases h : addition.category = category
  · rw [filter_cons_of_pos (by simpa using h), if_pos h, length_cons, countOf]
  · rw [filter_cons_of_neg (by simpa using h), if_neg h, countOf, Nat.add_zero]

theorem add_shown :
    (view.add addition).shown category = view.shown category + if addition.category = category then 1 else 0 := by
  cases addition <;> cases category <;>
    simp [ArtifactView.add, ArtifactView.shown, OptionalAddition.category]

theorem add_count : (view.add addition).omitted.count category =
      view.omitted.count category - if addition.category = category then 1 else 0 := by
  cases addition <;> cases category <;>
    simp [ArtifactView.add, OmittedView.count, OptionalAddition.category]

theorem addAll_shown : (view.addAll additions).shown category = view.shown category + countOf category additions := by
  induction additions generalizing view with
  | nil => rfl
  | cons addition additions ih => rw [addAll_cons, ih, add_shown, countOf_cons]; omega

theorem addAll_count :
    (view.addAll additions).omitted.count category = view.omitted.count category - countOf category additions := by
  induction additions generalizing view with
  | nil => exact (Int.sub_zero _).symm
  | cons addition additions ih =>
    rw [addAll_cons, ih, add_count, countOf_cons]
    split <;> push_cast <;> omega

theorem addAll_ids :
    (view.addAll additions).taskId = view.taskId ∧ (view.addAll additions).artifactId = view.artifactId := by
  induction additions generalizing view with
  | nil => exact ⟨rfl, rfl⟩
  | cons addition additions ih =>
    rw [addAll_cons, ih.1, ih.2]
    cases addition <;> exact ⟨rfl, rfl⟩

theorem addAll_keeps : view.childVerifications <+: (view.addAll additions).childVerifications ∧
      view.risks <+: (view.addAll additions).risks := by
  induction additions generalizing view with
  | nil => exact ⟨prefix_rfl, prefix_rfl⟩
  | cons addition additions ih =>
    have hadd : view.childVerifications <+: (view.add addition).childVerifications ∧
        view.risks <+: (view.add addition).risks := by
      cases addition <;> simp [ArtifactView.add]
    rw [addAll_cons]
    exact ⟨hadd.1.trans ih.1, hadd.2.trans ih.2⟩

theorem addAll_bytes (h : 0 ≤ view.omitted.summaryBytes ∧ 0 ≤ view.omitted.evidenceBytes ∧
      0 ≤ view.omitted.changedPathBytes ∧ 0 ≤ view.omitted.childVerificationBytes ∧ 0 ≤ view.omitted.riskBytes) :
    0 ≤ (view.addAll additions).omitted.summaryBytes ∧ 0 ≤ (view.addAll additions).omitted.evidenceBytes ∧
      0 ≤ (view.addAll additions).omitted.changedPathBytes ∧
      0 ≤ (view.addAll additions).omitted.childVerificationBytes ∧ 0 ≤ (view.addAll additions).omitted.riskBytes := by
  induction additions generalizing view with
  | nil => exact h
  | cons addition additions ih =>
    rw [addAll_cons]
    refine ih ?_
    cases addition <;> simp only [ArtifactView.add] <;> omega

theorem initial_shown (limit : ℕ) (category : Category) : (initialArtifactView limit artifact).shown category = 0 := by
  cases category <;> rfl

theorem initial_count (limit : ℕ) (category : Category) :
    (initialArtifactView limit artifact).omitted.count category = artifact.total category := by
  cases category <;> rfl

end

/-! ### Admission -/

section
variable {J : JsonText}

/-- The totals of a view are those of its dependencies, and it is within the limit. -/
structure Fits (J : JsonText) (view : DependencyView) : Prop where
  totals : view = finalized view.dependencies
  bytes : serializedBytes J view ≤ dependencyViewMaxBytes

/-- The steps of the two loops, each with the index of an addition and of a dependency. -/
def admitSteps (longestQueue count : ℕ) : List (ℕ × ℕ) :=
  (List.range longestQueue).flatMap fun additionIndex => (List.range count).map (additionIndex, ·)

/-- The addition of a dependency that is looked at in a step. -/
def visited (queues : List (List OptionalAddition)) (dependencyIndex : ℕ) (step : ℕ × ℕ) : Option OptionalAddition :=
  if step.2 = dependencyIndex then queues[dependencyIndex]?.bind (·[step.1]?) else none

theorem admitAdditions_eq_foldl (view : DependencyView) (queues : List (List OptionalAddition)) :
    admitAdditions J view queues = (admitSteps ((queues.map List.length).foldl max 0) queues.length).foldl
        (fun admitted step => admitStep J queues admitted step.1 step.2) view := by
  rw [admitAdditions, admitSteps, foldl_flatMap]
  simp only [foldl_map]

variable {view : DependencyView} {artifact : Artifact} {target source : ArtifactView} {artifacts : List Artifact}
  {counter : OmittedView → ℤ}

/-- **A step** leaves the view, or adds the addition that it looks at. -/
theorem admitStep_spec (queues : List (List OptionalAddition)) (h : Fits J view) (additionIndex dependencyIndex : ℕ) :
    Fits J (admitStep J queues view additionIndex dependencyIndex) ∧
      (admitStep J queues view additionIndex dependencyIndex = view ∨
        ∃ addition dep, queues[dependencyIndex]?.bind (·[additionIndex]?) = some addition ∧
          view.dependencies[dependencyIndex]? = some dep ∧
          (admitStep J queues view additionIndex dependencyIndex).dependencies =
            view.dependencies.set dependencyIndex (dep.add addition)) := by
  rw [admitStep]
  cases haddi : queues[dependencyIndex]?.bind (·[additionIndex]?) with
  | none => exact ⟨h, .inl rfl⟩
  | some addition =>
    dsimp only
    by_cases hfits : serializedBytes J (applyAddition view dependencyIndex addition) ≤ dependencyViewMaxBytes
    · rw [if_pos hfits]
      rw [applyAddition] at hfits ⊢
      cases hdep : view.dependencies[dependencyIndex]? with
      | none => exact ⟨h, .inl rfl⟩
      | some dep =>
        rw [hdep] at hfits
        exact ⟨⟨rfl, hfits⟩, .inr ⟨addition, dep, rfl, rfl, rfl⟩⟩
    · rw [if_neg hfits]
      exact ⟨h, .inl rfl⟩

theorem admit_foldl_spec (queues : List (List OptionalAddition)) (steps : List (ℕ × ℕ)) (h : Fits J view) :
    Fits J (steps.foldl (fun admitted step => admitStep J queues admitted step.1 step.2) view) ∧
      (steps.foldl (fun admitted step => admitStep J queues admitted step.1 step.2) view).dependencies.length =
        view.dependencies.length ∧ ∀ (i : ℕ) (dep : ArtifactView), view.dependencies[i]? = some dep →
        ∃ admitted : List OptionalAddition, admitted.Sublist (steps.filterMap (visited queues i)) ∧
          (steps.foldl (fun admitted step => admitStep J queues admitted step.1 step.2) view).dependencies[i]? =
            some (dep.addAll admitted) := by
  induction steps generalizing view with
  | nil => exact ⟨h, rfl, fun i dep hi => ⟨[], List.Sublist.refl _, hi⟩⟩
  | cons step steps ih =>
    obtain ⟨hfits, hstep⟩ := admitStep_spec queues h step.1 step.2
    obtain ⟨hend, hlen, hrest⟩ := ih hfits
    rw [foldl_cons]
    rcases hstep with hsame | ⟨addition, dep, haddi, hdep, hset⟩
    · rw [hsame] at hlen hrest hend ⊢
      refine ⟨hend, hlen, fun i dep hi => ?_⟩
      obtain ⟨admitted, hsub, hget⟩ := hrest i dep hi
      refine ⟨admitted, hsub.trans ?_, hget⟩
      rw [filterMap_cons]
      split
      · exact List.Sublist.refl _
      · exact sublist_cons_self ..
    · rw [hset, length_set] at hlen
      refine ⟨hend, hlen, fun i other hi => ?_⟩
      by_cases hidx : step.2 = i
      · rw [hidx] at hdep
        rw [hdep, Option.some_inj] at hi
        obtain ⟨admitted, hsub, hget⟩ := hrest i (dep.add addition) (by
          rw [hset, hidx, List.getElem?_set_self (List.getElem?_eq_some_iff.mp hdep).1])
        refine ⟨addition :: admitted, ?_, by rw [hget, ← hi, addAll_cons]⟩
        have hvis : visited queues i step = some addition := by
          rw [visited, if_pos hidx, ← hidx, haddi]
        rw [filterMap_cons_some hvis]
        exact hsub.cons_cons addition
      · obtain ⟨admitted, hsub, hget⟩ := hrest i other (by rw [hset, List.getElem?_set_ne hidx, hi])
        have hvis : visited queues i step = none := if_neg hidx
        rw [filterMap_cons_none hvis]
        exact ⟨admitted, hsub, hget⟩

theorem flatMap_getElem?_toList {α : Type} (xs : List α) {n : ℕ} (hn : xs.length ≤ n) :
    (List.range n).flatMap (fun i => xs[i]?.toList) = xs := by
  obtain ⟨k, rfl⟩ := Nat.exists_eq_add_of_le hn
  have hpast : (List.range k).flatMap (fun i => xs[xs.length + i]?.toList) = [] := by
    refine flatMap_eq_nil_iff.mpr fun i _ => ?_
    rw [List.getElem?_eq_none (Nat.le_add_right _ _)]
    rfl
  rw [range_add, flatMap_append, flatMap_map, hpast, append_nil]
  clear hn hpast
  induction xs with
  | nil => rfl
  | cons x xs ih =>
    rw [length_cons, range_succ_eq_map, flatMap_cons, flatMap_map]
    simp only [List.getElem?_cons_zero, Option.toList_some, List.getElem?_cons_succ, singleton_append]
    rw [ih]

theorem le_foldl_max (lengths : List ℕ) (start : ℕ) {n : ℕ} (h : n ≤ start ∨ n ∈ lengths) :
    n ≤ lengths.foldl max start := by
  induction lengths generalizing start with
  | nil => exact h.resolve_right not_mem_nil
  | cons m lengths ih =>
    refine ih _ ?_
    rcases h with hpre | hmem
    · exact .inl (hpre.trans (Nat.le_max_left ..))
    · rcases mem_cons.mp hmem with rfl | hrest
      · exact .inl (Nat.le_max_right ..)
      · exact .inr hrest

theorem filterMap_visited {queues : List (List OptionalAddition)} {i : ℕ} {queue : List OptionalAddition}
    (hi : queues[i]? = some queue) {longestQueue : ℕ} (hlon : queue.length ≤ longestQueue) :
    (admitSteps longestQueue queues.length).filterMap (visited queues i) = queue := by
  have hlt : i < queues.length := (List.getElem?_eq_some_iff.mp hi).1
  rw [admitSteps, filterMap_flatMap]
  have hroun : ∀ additionIndex, ((List.range queues.length).map (additionIndex, ·)).filterMap (visited queues i) =
      queue[additionIndex]?.toList := by
    intro additionIndex
    rw [filterMap_map]
    have hspl : List.range queues.length = List.range i ++ i :: List.range' (i + 1) (queues.length - (i + 1)) := by
      have happ := List.range'_append_1 (s := 0) (m := i) (n := queues.length - (i + 1) + 1)
      rw [Nat.zero_add] at happ
      rw [range_eq_range', range_eq_range', ← List.range'_succ, happ]
      congr 1
      omega
    have hnone : ∀ index, index ≠ i → (visited queues i ∘ (additionIndex, ·)) index = none :=
      fun index hne => if_neg hne
    rw [hspl, filterMap_append, filterMap_eq_nil_iff.mpr fun index hidx => hnone index (mem_range.mp hidx).ne, nil_append]
    have hself : (visited queues i ∘ (additionIndex, ·)) i = queue[additionIndex]? := by
      change (if i = i then _ else _) = _
      rw [if_pos rfl, hi, Option.bind_some]
    have haft : (List.range' (i + 1) (queues.length - (i + 1))).filterMap
        (visited queues i ∘ (additionIndex, ·)) = [] := by
      refine filterMap_eq_nil_iff.mpr fun index hidx => hnone index ?_
      rw [mem_range'_1] at hidx
      omega
    rw [filterMap_cons, hself, haft]
    cases queue[additionIndex]? <;> rfl
  simp only [hroun]
  exact flatMap_getElem?_toList queue hlon

/-- **The admission**: each dependency gets some of its additions, in their order. -/
theorem admitAdditions_spec (queues : List (List OptionalAddition)) (h : Fits J view) :
    Fits J (admitAdditions J view queues) ∧
      (admitAdditions J view queues).dependencies.length = view.dependencies.length ∧
      ∀ (i : ℕ) (dep : ArtifactView) (queue : List OptionalAddition),
        view.dependencies[i]? = some dep → queues[i]? = some queue →
        ∃ admitted : List OptionalAddition, admitted.Sublist queue ∧
          (admitAdditions J view queues).dependencies[i]? = some (dep.addAll admitted) := by
  rw [admitAdditions_eq_foldl]
  obtain ⟨hfits, hlen, hall⟩ := admit_foldl_spec queues
    (admitSteps ((queues.map List.length).foldl max 0) queues.length) h
  refine ⟨hfits, hlen, fun i dep queue hi hque => ?_⟩
  obtain ⟨admitted, hsub, hget⟩ := hall i dep hi
  rw [filterMap_visited hque (le_foldl_max _ _ (.inr (mem_map_of_mem (mem_of_getElem? hque))))] at hsub
  exact ⟨admitted, hsub, hget⟩

/-! ### Summaries -/

def IsCritical (addition : OptionalAddition) : Prop :=
  addition.category = .childVerifications ∨ addition.category = .risks

theorem isCritical_of_mem {addition : OptionalAddition}
    (h : addition ∈ criticalAdditionsFor artifact) : IsCritical addition := by
  rw [criticalAdditionsFor] at h
  rcases mem_append.mp h with hchk | hrisk
  · obtain ⟨candidate, -, rfl⟩ := mem_map.mp hchk
    exact .inl rfl
  · obtain ⟨candidate, -, rfl⟩ := mem_map.mp hrisk
    exact .inr rfl

theorem pin_add {addition : OptionalAddition} (h : IsCritical addition) :
    target.pin (source.add addition) = (target.pin source).add addition := by
  cases addition with
  | childVerification candidate => rfl
  | risk candidate => rfl
  | evidence candidate | changedPath candidate | validation candidate => rcases h with h | h <;> cases h

theorem pin_addAll {additions : List OptionalAddition} (h : ∀ addition ∈ additions, IsCritical addition) :
    target.pin (source.addAll additions) = (target.pin source).addAll additions := by
  induction additions generalizing source with
  | nil => rfl
  | cons addition additions ih =>
    obtain ⟨haddi, hadditions⟩ := forall_mem_cons.mp h
    rw [addAll_cons, ih hadditions, pin_add haddi, addAll_cons]

theorem pin_initial (limit limit' : ℕ) (artifact : Artifact) :
    (initialArtifactView limit artifact).pin (initialArtifactView limit' artifact) =
      initialArtifactView limit artifact := rfl

theorem length_pinAll (targets sources : List ArtifactView) : (pinAll targets sources).length = targets.length := by
  induction targets generalizing sources with
  | nil => cases sources <;> rfl
  | cons target targets ih =>
    cases sources with
    | nil => rfl
    | cons source sources => rw [pinAll, length_cons, ih, length_cons]

theorem getElem?_pinAll {targets sources : List ArtifactView} {i : ℕ}
    (htgt : targets[i]? = some target) (hsrc : sources[i]? = some source) :
    (pinAll targets sources)[i]? = some (target.pin source) := by
  induction targets generalizing sources i with
  | nil => exact absurd htgt.symm (Option.some_ne_none _)
  | cons first targets ih =>
    cases sources with
    | nil => exact absurd hsrc.symm (Option.some_ne_none _)
    | cons other sources =>
      cases i with
      | zero =>
        rw [List.getElem?_cons_zero, Option.some_inj] at htgt hsrc
        rw [pinAll, List.getElem?_cons_zero, htgt, hsrc]
      | succ i =>
        rw [List.getElem?_cons_succ] at htgt hsrc
        rw [pinAll, List.getElem?_cons_succ, ih htgt hsrc]

/-- **The search** ends with the view it starts with, or one with other summaries that fits. -/
theorem searchSummaryLimit_spec (artifacts : List Artifact) (critical : DependencyView) (low high : ℕ)
    (view : DependencyView) : searchSummaryLimit J artifacts critical low high view = view ∨
      ∃ limit, searchSummaryLimit J artifacts critical low high view =
          pinCriticalDetails (initialView artifacts limit) critical ∧
        serializedBytes J (pinCriticalDetails (initialView artifacts limit) critical) ≤ dependencyViewMaxBytes := by
  fun_induction searchSummaryLimit J artifacts critical low high view with
  | case1 low high view hle candidateLimit candidate hfits ih =>
    rcases ih with hsame | hother
    · exact .inr ⟨candidateLimit, hsame, hfits⟩
    · exact .inr hother
  | case2 => exact .inl rfl
  | case3 low high view hle candidateLimit candidate hfits hzero ih => exact ih
  | case4 => exact .inl rfl

theorem fits_initialView {limit : ℕ} (h : serializedBytes J (initialView artifacts limit) ≤ dependencyViewMaxBytes) :
    Fits J (initialView artifacts limit) := ⟨rfl, h⟩

theorem criticalView_spec (h : serializedBytes J (initialView artifacts minSummaryBytes) ≤ dependencyViewMaxBytes) :
    Fits J (criticalView J artifacts) ∧ (criticalView J artifacts).dependencies.length = artifacts.length ∧
      ∀ (i : ℕ) (artifact : Artifact), artifacts[i]? = some artifact →
        ∃ critical : List OptionalAddition, critical.Sublist (criticalAdditionsFor artifact) ∧
          (criticalView J artifacts).dependencies[i]? =
            some ((initialArtifactView minSummaryBytes artifact).addAll critical) := by
  obtain ⟨hfits, hlen, hall⟩ := admitAdditions_spec (artifacts.map criticalAdditionsFor) (fits_initialView h)
  refine ⟨hfits, hlen.trans (length_map ..), fun i artifact hi => ?_⟩
  refine hall i _ _ ?_ ?_
  · rw [initialView, finalized, List.getElem?_map, hi, Option.map_some]
  · rw [List.getElem?_map, hi, Option.map_some]

theorem searched_spec
    (h : serializedBytes J (initialView artifacts minSummaryBytes) ≤ dependencyViewMaxBytes) (low high : ℕ) :
    let view := searchSummaryLimit J artifacts (criticalView J artifacts) low high (criticalView J artifacts)
    Fits J view ∧ view.dependencies.length = artifacts.length ∧
      ∃ limit, ∀ (i : ℕ) (artifact : Artifact), artifacts[i]? = some artifact →
        ∃ critical : List OptionalAddition, critical.Sublist (criticalAdditionsFor artifact) ∧
          (criticalView J artifacts).dependencies[i]? =
            some ((initialArtifactView minSummaryBytes artifact).addAll critical) ∧
          view.dependencies[i]? = some ((initialArtifactView limit artifact).addAll critical) := by
  intro view
  obtain ⟨hfits, hlen, hall⟩ := criticalView_spec h
  rcases searchSummaryLimit_spec artifacts (criticalView J artifacts) low high (criticalView J artifacts) with
    hsame | ⟨limit, hpinn, hbyt⟩
  · rw [show view = criticalView J artifacts from hsame]
    refine ⟨hfits, hlen, minSummaryBytes, fun i artifact hi => ?_⟩
    obtain ⟨critical, hsub, hget⟩ := hall i artifact hi
    exact ⟨critical, hsub, hget, hget⟩
  · rw [show view = _ from hpinn]
    refine ⟨⟨rfl, hbyt⟩, ?_, limit, fun i artifact hi => ?_⟩
    · exact (length_pinAll _ _).trans (length_map ..)
    · obtain ⟨critical, hsub, hget⟩ := hall i artifact hi
      refine ⟨critical, hsub, hget, ?_⟩
      have htgt : (initialView artifacts limit).dependencies[i]? = some (initialArtifactView limit artifact) := by
        rw [initialView, finalized, List.getElem?_map, hi, Option.map_some]
      have hcri : ∀ addition ∈ critical, IsCritical addition :=
        fun addition hmem => isCritical_of_mem (hsub.subset hmem)
      rw [pinCriticalDetails, finalized, getElem?_pinAll htgt hget, pin_addAll hcri, pin_initial]

/-- **The projection**: each dependency is the view of its artifact, with the critical details that were
admitted and with some of the others. -/
theorem projectDependencyArtifacts_spec {input : List Artifact} (h : projectDependencyArtifacts J input = .ok view) :
    Fits J view ∧ view.dependencies.length = (sortArtifacts input).length ∧
      ∃ limit, ∀ (i : ℕ) (artifact : Artifact), (sortArtifacts input)[i]? = some artifact →
        ∃ critical others : List OptionalAddition, critical.Sublist (criticalAdditionsFor artifact) ∧
          others.Sublist (additionsFor artifact) ∧ (criticalView J (sortArtifacts input)).dependencies[i]? =
            some ((initialArtifactView minSummaryBytes artifact).addAll critical) ∧
          view.dependencies[i]? = some ((initialArtifactView limit artifact).addAll (critical ++ others)) := by
  rw [projectDependencyArtifacts] at h
  split at h
  · exact absurd h (by simp)
  · rename_i hmin
    rw [← Except.ok.inj h]
    obtain ⟨hfits, hlen, limit, hall⟩ := searched_spec (not_lt.mp hmin) minSummaryBytes summaryMaxBytes
    obtain ⟨hend, hendL, hadm⟩ := admitAdditions_spec ((sortArtifacts input).map additionsFor) hfits
    refine ⟨hend, hendL.trans hlen, limit, fun i artifact hi => ?_⟩
    obtain ⟨critical, hcri, hget, hsea⟩ := hall i artifact hi
    have hque : ((sortArtifacts input).map additionsFor)[i]? = some (additionsFor artifact) := by
      rw [List.getElem?_map, hi, Option.map_some]
    obtain ⟨others, hoth, hfin⟩ := hadm i _ _ hsea hque
    exact ⟨critical, others, hcri, hoth, hget, by rw [hfin, addAll_append]⟩

end

/-! ### The order of the artifacts -/

theorem idLE_iff {left right : Artifact} :
    idLE left right = true ↔ (left.taskId ≠ right.taskId ∧ textLE left.taskId right.taskId = true) ∨
      (left.taskId = right.taskId ∧ textLE left.artifactId right.artifactId = true) := by
  rw [idLE]
  by_cases h : left.taskId = right.taskId
  · rw [if_neg (not_not.mpr h)]
    simp [h]
  · rw [if_pos h]
    simp [h]

theorem idLE_trans (a b c : Artifact) (hab : idLE a b = true) (hbc : idLE b c = true) : idLE a c = true := by
  rw [idLE_iff] at hab hbc ⊢
  rcases hab with ⟨hne, hab⟩ | ⟨heq, hab⟩ <;> rcases hbc with ⟨hne', hbc⟩ | ⟨heq', hbc⟩
  · by_cases hac : a.taskId = c.taskId
    · rw [← hac] at hbc
      exact absurd (textLE_antisymm hab hbc) hne
    · exact .inl ⟨hac, textLE_trans hab hbc⟩
  · rw [heq'] at hne hab
    exact .inl ⟨hne, hab⟩
  · rw [← heq] at hne' hbc
    exact .inl ⟨hne', hbc⟩
  · exact .inr ⟨heq.trans heq', textLE_trans hab hbc⟩

theorem idLE_total (a b : Artifact) : (idLE a b || idLE b a) = true := by
  rw [Bool.or_eq_true, idLE_iff, idLE_iff]
  by_cases h : a.taskId = b.taskId
  · rcases textLE_total a.artifactId b.artifactId with hle | hle
    · exact .inl (.inr ⟨h, hle⟩)
    · exact .inr (.inr ⟨h.symm, hle⟩)
  · rcases textLE_total a.taskId b.taskId with hle | hle
    · exact .inl (.inl ⟨h, hle⟩)
    · exact .inr (.inl ⟨Ne.symm h, hle⟩)

theorem idLE_antisymm {a b : Artifact} (hab : idLE a b = true) (hba : idLE b a = true) :
    (a.taskId, a.artifactId) = (b.taskId, b.artifactId) := by
  rw [idLE_iff] at hab hba
  rcases hab with ⟨hne, hab⟩ | ⟨heq, hab⟩ <;> rcases hba with ⟨hne', hba⟩ | ⟨heq', hba⟩
  · exact absurd (textLE_antisymm hab hba) hne
  · exact absurd heq'.symm hne
  · exact absurd heq.symm hne'
  · rw [heq, textLE_antisymm hab hba]

theorem sortArtifacts_perm (input : List Artifact) : (sortArtifacts input).Perm input := mergeSort_perm ..

theorem sortArtifacts_sorted (input : List Artifact) :
    (sortArtifacts input).Pairwise fun left right => idLE left right = true :=
  pairwise_mergeSort idLE_trans idLE_total input

/-- **Artifacts with distinct ids have one order.** -/
theorem sortArtifacts_eq {input input' : List Artifact} (hperm : input.Perm input')
    (hdistinct : (input.map fun artifact => (artifact.taskId, artifact.artifactId)).Nodup) :
    sortArtifacts input = sortArtifacts input' := by
  refine List.Perm.eq_of_pairwise (fun a b ha hb hab hba => ?_) (sortArtifacts_sorted input) (sortArtifacts_sorted input')
    ((sortArtifacts_perm input).trans (hperm.trans (sortArtifacts_perm input').symm))
  refine inj_on_of_nodup_map hdistinct ((sortArtifacts_perm input).mem_iff.mp ha) ?_ (idLE_antisymm hab hba)
  exact hperm.mem_iff.mpr ((sortArtifacts_perm input').mem_iff.mp hb)

/-! ### Accounts -/

theorem countOf_append (additions more : List OptionalAddition) :
    countOf category (additions ++ more) = countOf category additions + countOf category more := by
  rw [countOf, filter_append, length_append, countOf, countOf]

theorem countOf_le_of_sublist {additions more : List OptionalAddition} (category : Category)
    (h : additions.Sublist more) : countOf category additions ≤ countOf category more := (h.filter _).length_le

theorem countOf_map {α : Type} {f : α → OptionalAddition} (kind : Category) (hf : ∀ x, (f x).category = kind)
    (category : Category) (xs : List α) : countOf category (xs.map f) = if kind = category then xs.length else 0 := by
  induction xs with
  | nil => exact (ite_self _).symm
  | cons x xs ih =>
    rw [map_cons, countOf_cons, ih, hf]
    split <;> rfl

theorem countOf_rounds {α : Type} {f : α → OptionalAddition} (kind : Category) (hf : ∀ x, (f x).category = kind)
    (category : Category) (xs : List α) {rounds : ℕ} (hrou : xs.length ≤ rounds) :
    countOf category ((List.range rounds).flatMap fun index => (xs[index]?.map f).toList) =
      if kind = category then xs.length else 0 := by
  have hall : (List.range rounds).flatMap (fun index => (xs[index]?.map f).toList) = xs.map f := by
    simp only [← List.getElem?_map]
    exact flatMap_getElem?_toList _ (by rw [length_map]; exact hrou)
  rw [hall, countOf_map kind hf]

theorem countOf_flatMap_append (indices : List ℕ) (f g : ℕ → List OptionalAddition) :
    countOf category (indices.flatMap fun index => f index ++ g index) =
      countOf category (indices.flatMap f) + countOf category (indices.flatMap g) := by
  induction indices with
  | nil => rfl
  | cons index indices ih =>
    simp only [flatMap_cons, countOf_append, ih]
    omega

/-- **Each detail of an artifact is one of its additions**, critical or not. -/
theorem countOf_additions (artifact : Artifact) (category : Category) :
    countOf category (criticalAdditionsFor artifact) + countOf category (additionsFor artifact) =
      artifact.total category := by
  have hche (checks : List (Candidate ChildVerificationView)) :
      (checks.filter (·.value.status ≠ .passed)).length + (checks.filter (·.value.status = .passed)).length =
        checks.length := by
    induction checks with
    | nil => rfl
    | cons check checks ih =>
      by_cases h : check.value.status = .passed <;> simp [h] at ih ⊢ <;> omega
  have hche := hche (artifact.handoff.verification.map projectChildVerification)
  rw [criticalAdditionsFor, additionsFor]
  rw [countOf_append, countOf_map .childVerifications fun _ => rfl, countOf_map .risks fun _ => rfl,
    countOf_flatMap_append, countOf_flatMap_append, countOf_flatMap_append,
    countOf_rounds .evidence (fun _ => rfl) _ _ (by omega), countOf_rounds .changedPaths (fun _ => rfl) _ _ (by omega),
    countOf_rounds .controllerValidations (fun _ => rfl) _ _ (by omega),
    countOf_rounds .childVerifications (fun _ => rfl) _ _ (by omega)]
  rw [length_map] at hche
  cases category with
  | childVerifications => simpa using hche
  | evidence | changedPaths | controllerValidations | risks => simp

/-- The ids and the numbers of a dependency fit its artifact, and nothing is left out less than no time. -/
structure Accounts (artifact : Artifact) (dependency : ArtifactView) : Prop where
  ids : dependency.taskId = artifact.taskId ∧ dependency.artifactId = artifact.artifactId
  accounts : ∀ category, (dependency.shown category : ℤ) + dependency.omitted.count category = artifact.total category
  nonneg : ∀ counter ∈ OmittedView.counters, 0 ≤ counter dependency.omitted

theorem accounts_addAll {limit : ℕ} {additions : List OptionalAddition}
    (h : ∀ category, countOf category additions ≤ artifact.total category) :
    Accounts artifact ((initialArtifactView limit artifact).addAll additions) := by
  refine ⟨addAll_ids, fun category => ?_, ?_⟩
  · rw [addAll_shown, addAll_count, initial_shown, initial_count]
    omega
  · have hcnt (category : Category) :
        0 ≤ ((initialArtifactView limit artifact).addAll additions).omitted.count category := by
      have hle := h category
      rw [addAll_count, initial_count]
      omega
    have hbyt := @addAll_bytes (initialArtifactView limit artifact) additions
      ⟨Int.natCast_nonneg _, Int.le_refl _, Int.le_refl _, Int.le_refl _, Int.le_refl _⟩
    obtain ⟨hsumm, hevi, hpat, hche, hris⟩ := hbyt
    rw [OmittedView.counters]
    simp only [forall_mem_cons, not_mem_nil, false_imp_iff, implies_true, and_true]
    exact ⟨hsumm, hcnt .evidence, hevi, hcnt .changedPaths, hpat, hcnt .controllerValidations,
      hcnt .childVerifications, hche, hcnt .risks, hris⟩

section
variable (h : counter ∈ OmittedView.counters)
include h

theorem counter_add (total omitted : OmittedView) : counter (total.add omitted) = counter total + counter omitted := by
  revert counter
  rw [OmittedView.counters]
  simp only [forall_mem_cons, not_mem_nil, false_imp_iff, implies_true, and_true]
  exact ⟨rfl, rfl, rfl, rfl, rfl, rfl, rfl, rfl, rfl, rfl⟩

theorem counter_zero : counter {} = 0 := by
  revert counter
  rw [OmittedView.counters]
  simp only [forall_mem_cons, not_mem_nil, false_imp_iff, implies_true, and_true]

/-- **The totals are the sums.** -/
theorem counter_omittedTotals (dependencies : List ArtifactView) :
    counter (omittedTotals dependencies) = (dependencies.map fun dep => counter dep.omitted).sum := by
  have hfrom (total : OmittedView) :
      counter (dependencies.foldl (fun total dep => total.add dep.omitted) total) =
        counter total + (dependencies.map fun dep => counter dep.omitted).sum := by
    induction dependencies generalizing total with
    | nil => exact (Int.add_zero _).symm
    | cons dep dependencies ih =>
      rw [foldl_cons, ih, counter_add h, map_cons, sum_cons, Int.add_assoc]
  rw [omittedTotals, hfrom, counter_zero h, Int.zero_add]

end

theorem sum_pos_iff {values : List ℤ} (h : ∀ value ∈ values, 0 ≤ value) :
    0 < values.sum ↔ ∃ value ∈ values, 0 < value := by
  induction values with
  | nil => simp
  | cons value values ih =>
    obtain ⟨hvl, hval⟩ := forall_mem_cons.mp h
    have hrest : 0 ≤ values.sum := sum_nonneg hval
    have ih := ih hval
    rw [sum_cons, exists_mem_cons_iff, ← ih]
    omega

theorem anyPositive_iff (omitted : OmittedView) :
    omitted.anyPositive = true ↔ ∃ counter ∈ OmittedView.counters, 0 < counter omitted := by
  rw [OmittedView.anyPositive, any_eq_true]
  simp only [decide_eq_true_eq]

theorem truncated_iff {dependencies : List ArtifactView}
    (h : ∀ dep ∈ dependencies, ∀ counter ∈ OmittedView.counters, 0 ≤ counter dep.omitted) :
    (finalized dependencies).truncated = true ↔
      ∃ dep ∈ dependencies, ∃ counter ∈ OmittedView.counters, 0 < counter dep.omitted := by
  have hsum (counter) (hcou : counter ∈ OmittedView.counters) :
      0 < counter (omittedTotals dependencies) ↔ ∃ dep ∈ dependencies, 0 < counter dep.omitted := by
    have hnon : ∀ value ∈ dependencies.map (fun dep => counter dep.omitted), 0 ≤ value := by
      intro value hvl
      obtain ⟨dep, hdep, rfl⟩ := mem_map.mp hvl
      exact h dep hdep counter hcou
    rw [counter_omittedTotals hcou, sum_pos_iff hnon]
    simp only [mem_map, exists_exists_and_eq_and]
  rw [finalized, anyPositive_iff]
  constructor
  · rintro ⟨counter, hcou, hpos⟩
    obtain ⟨dep, hdep, hpos⟩ := (hsum counter hcou).mp hpos
    exact ⟨dep, hdep, counter, hcou, hpos⟩
  · rintro ⟨dep, hdep, counter, hcou, hpos⟩
    exact ⟨counter, hcou, (hsum counter hcou).mpr ⟨dep, hdep, hpos⟩⟩

/-! ### The projection -/

/-- What holds of a projected view: it is within the limit, has one dependency for each artifact in the order
of the ids with exact accounts, and has kept every critical detail that was admitted first. -/
structure IsProjection (J : JsonText) (input : List Artifact) (view : DependencyView) : Prop where
  bytes : serializedBytes J view ≤ dependencyViewMaxBytes
  dependencies : ∃ artifacts, artifacts.Perm input ∧ (artifacts.Pairwise fun left right => idLE left right = true) ∧
    List.Forall₂ Accounts artifacts view.dependencies
  totals : ∀ counter ∈ OmittedView.counters, counter view.omittedTotals =
    (view.dependencies.map fun dependency => counter dependency.omitted).sum
  truncated : view.truncated = true ↔
    ∃ dependency ∈ view.dependencies, ∃ counter ∈ OmittedView.counters, 0 < counter dependency.omitted
  critical : List.Forall₂ (fun admitted dependency : ArtifactView =>
      admitted.childVerifications <+: dependency.childVerifications ∧ admitted.risks <+: dependency.risks)
    (criticalView J (sortArtifacts input)).dependencies view.dependencies

theorem addAll_prefix {limit limit' : ℕ} {critical others : List OptionalAddition}
    (h : ∀ addition ∈ critical, IsCritical addition) :
    ((initialArtifactView limit artifact).addAll critical).childVerifications <+:
        ((initialArtifactView limit' artifact).addAll (critical ++ others)).childVerifications ∧
      ((initialArtifactView limit artifact).addAll critical).risks <+:
        ((initialArtifactView limit' artifact).addAll (critical ++ others)).risks := by
  have hpin : (initialArtifactView limit' artifact).pin ((initialArtifactView limit artifact).addAll critical) =
      (initialArtifactView limit' artifact).addAll critical := by
    rw [pin_addAll h, pin_initial]
  have hkp := @addAll_keeps ((initialArtifactView limit' artifact).pin
    ((initialArtifactView limit artifact).addAll critical)) others
  rw [addAll_append, ← hpin]
  exact hkp

theorem isProjection_of_ok {J : JsonText} {input : List Artifact}
    (h : projectDependencyArtifacts J input = .ok view) : IsProjection J input view := by
  obtain ⟨hfits, hlen, limit, hall⟩ := projectDependencyArtifacts_spec h
  have hcrit : (criticalView J (sortArtifacts input)).dependencies.length = view.dependencies.length := by
    rw [hlen]
    rw [projectDependencyArtifacts] at h
    split at h
    · exact absurd h (by simp)
    · exact (criticalView_spec (not_lt.mp ‹_›)).2.1
  have hacc : List.Forall₂ Accounts (sortArtifacts input) view.dependencies := by
    refine Pointwise.of_index hlen.symm fun i artifact dep hart hdep => ?_
    obtain ⟨critical, others, hcri, hoth, -, hget⟩ := hall i artifact hart
    rw [hget, Option.some_inj] at hdep
    rw [← hdep]
    refine accounts_addAll fun category => ?_
    rw [countOf_append, ← countOf_additions]
    exact Nat.add_le_add (countOf_le_of_sublist category hcri) (countOf_le_of_sublist category hoth)
  refine ⟨hfits.bytes, ⟨_, sortArtifacts_perm input, sortArtifacts_sorted input, hacc⟩, ?_, ?_, ?_⟩
  · rw [hfits.totals]
    exact fun counter hcou => counter_omittedTotals hcou _
  · rw [hfits.totals]
    refine truncated_iff fun dep hdep => ?_
    obtain ⟨artifact, -, hacco⟩ := Pointwise.left hacc hdep
    exact hacco.nonneg
  · refine Pointwise.of_index hcrit fun i admitted dep hadm hdep => ?_
    have hlt : i < (sortArtifacts input).length := by
      rw [← hlen]
      exact (List.getElem?_eq_some_iff.mp hdep).1
    obtain ⟨critical, others, hcri, -, hfst, hget⟩ := hall i _ (List.getElem?_eq_getElem hlt)
    rw [hfst, Option.some_inj] at hadm
    rw [hget, Option.some_inj] at hdep
    rw [← hadm, ← hdep]
    exact addAll_prefix fun addition hmem => isCritical_of_mem (hcri.subset hmem)

/-- **The projection is bounded, accounts for every detail and does not depend on the order of the
artifacts**; it fails exactly if the ids with minimal summaries are over the limit. -/
theorem projectDependencyArtifacts_exact (J : JsonText) (input : List Artifact)
    (hdistinct : (input.map fun artifact => (artifact.taskId, artifact.artifactId)).Nodup) :
    (dependencyViewMaxBytes < serializedBytes J (initialView (sortArtifacts input) minSummaryBytes) →
      ∃ message, projectDependencyArtifacts J input = .error message) ∧
    (serializedBytes J (initialView (sortArtifacts input) minSummaryBytes) ≤ dependencyViewMaxBytes →
      ∃ view, projectDependencyArtifacts J input = .ok view ∧ IsProjection J input view) ∧
    ∀ input', input.Perm input' → projectDependencyArtifacts J input' = projectDependencyArtifacts J input := by
  refine ⟨fun hover => ?_, fun hfits => ?_, fun input' hperm => ?_⟩
  · rw [projectDependencyArtifacts, if_pos hover]
    exact ⟨_, rfl⟩
  · cases hres : projectDependencyArtifacts J input with
    | error message =>
      rw [projectDependencyArtifacts, if_neg (not_lt.mpr hfits)] at hres
      exact absurd hres (by simp)
    | ok view => exact ⟨view, rfl, isProjection_of_ok hres⟩
  · rw [projectDependencyArtifacts, projectDependencyArtifacts, sortArtifacts_eq hperm hdistinct]

/-- A report with evidence, and a change with a failed check and a risk. -/
def sampleArtifacts : List Artifact :=
  [{ taskId := "scout"
     artifactId := "a1"
     handoff := { summary := "the parser is in src/a.ts", evidence := [⟨"src/a.ts", some "1-20", "parser"⟩] }
     quality := { semanticOutcome := .accepted, pathAudit := .notApplicable, validationStatus := .notApplicable } },
   { taskId := "write"
     artifactId := "a2"
     handoff := {
       summary := "done"
       verification := [⟨"unit tests", .failed, some "two failures"⟩, ⟨"lint", .passed, none⟩]
       risks := ["untested on Windows"] }
     changedPaths := ["src/a.ts"]
     quality := { semanticOutcome := .accepted, pathAudit := .passed, validationStatus := .passed } }]

theorem fits_sampleArtifacts :
    serializedBytes JsonText.printed (initialView sampleArtifacts minSummaryBytes) ≤ dependencyViewMaxBytes := by
  change (Standard.stringify _).utf8ByteSize ≤ _
  rw [Standard.stringify, String.utf8ByteSize_ofList]
  decide +kernel

theorem sortArtifacts_sampleArtifacts : sortArtifacts sampleArtifacts = sampleArtifacts :=
  mergeSort_of_pairwise (by decide +kernel)

theorem projectDependencyArtifacts_exact_sample :
    ∃ view, projectDependencyArtifacts JsonText.printed sampleArtifacts = .ok view ∧
      IsProjection JsonText.printed sampleArtifacts view ∧
      projectDependencyArtifacts JsonText.printed sampleArtifacts.reverse = .ok view := by
  obtain ⟨-, hok, hperm⟩ := projectDependencyArtifacts_exact JsonText.printed sampleArtifacts (by decide)
  have hrev := hperm sampleArtifacts.reverse (reverse_perm _).symm
  obtain ⟨view, hview, hpro⟩ := hok (by rw [sortArtifacts_sampleArtifacts]; exact fits_sampleArtifacts)
  exact ⟨view, hview, hpro, hrev.trans hview⟩

end Dependencies
end EasyPi.Subagent
