/-
# The stable topological order

`stableTopologicalTasks` (`packages/subagent/src/dag-scheduler.ts`) rescans the tasks from the start and
takes the first one whose dependencies are all taken. It succeeds exactly on an acyclic request with
distinct ids and known dependencies, and the order is the first of all orders that put dependencies
first, by the positions of the tasks in the request.
-/
import EasyPi.Lib.Greedy
import EasyPi.Subagent.Candidate

namespace EasyPi.Subagent

open List

variable {tasks ordered order : List Contract} {task : Contract}

/-- The task is not taken yet, and its dependencies are. -/
def Ready (ordered : List Contract) (task : Contract) : Prop :=
  task.id ∉ ordered.map (·.id) ∧ ∀ dependency ∈ task.dependsOn, dependency ∈ ordered.map (·.id)

instance : ∀ ordered, DecidablePred (Ready ordered) := fun _ _ => inferInstanceAs (Decidable (_ ∧ _))

/-- Every task stands behind all its dependencies. -/
def DependenciesFirst (order : List Contract) : Prop :=
  ∀ before task after, order = before ++ task :: after → ∀ dependency ∈ task.dependsOn, dependency ∈ before.map (·.id)

def positions (tasks order : List Contract) : List ℕ := order.map (tasks.idxOf ·)

/-- The request has distinct ids, its dependencies are tasks, and no task depends on itself. -/
structure WellOrdered (tasks : List Contract) : Prop where
  distinct : (tasks.map (·.id)).Nodup
  known : ∀ task ∈ tasks, ∀ dependency ∈ task.dependsOn, dependency ∈ tasks.map (·.id)
  acyclic : ∀ taskId, ¬ Relation.TransGen (DependsOn tasks) taskId taskId

/-- The loop as it is written, with its condition; nothing when the fuel is used up. -/
def topologicalTasksWhile (tasks : List Contract) :
    ℕ → List Contract → Option (Except String (List Contract))
  | 0, _ => none
  | fuel + 1, ordered =>
    if ordered.length < tasks.length then
      match tasks.find? (Ready ordered ·) with
      | none => some (.error "DAG request contains a dependency cycle or unknown dependency")
      | some next =>
        if ∀ dependency ∈ next.dependsOn, dependency ∈ tasks.map (·.id) then
          topologicalTasksWhile tasks fuel (ordered ++ [next])
        else some (.error ("Task " ++ next.id ++ " depends on unknown task"))
    else some (.ok ordered)

/-! ### The loop -/

theorem topologicalTasksLoop_succ (fuel : ℕ) (ordered : List Contract) :
    topologicalTasksLoop tasks (fuel + 1) ordered = match tasks.find? (Ready ordered ·) with
      | none => .error "DAG request contains a dependency cycle or unknown dependency"
      | some next =>
        require (∀ dependency ∈ next.dependsOn, dependency ∈ tasks.map (·.id))
          ("Task " ++ next.id ++ " depends on unknown task") >>= fun _ =>
        topologicalTasksLoop tasks fuel (ordered ++ [next]) := rfl

/-- **The loop ends**: one pass for each task that is missing, and the condition fails. -/
theorem topologicalTasksWhile_eq {missing : ℕ} (hmis : ordered.length + missing = tasks.length) :
    ∀ {fuel : ℕ}, missing < fuel →
      topologicalTasksWhile tasks fuel ordered = some (topologicalTasksLoop tasks missing ordered) := by
  induction missing generalizing ordered with
  | zero =>
    intro fuel hfuel
    obtain ⟨fuel, rfl⟩ := Nat.exists_eq_succ_of_ne_zero (Nat.ne_of_gt hfuel)
    rw [topologicalTasksWhile, if_neg (by omega), topologicalTasksLoop]
  | succ missing ih =>
    intro fuel hfuel
    obtain ⟨fuel, rfl⟩ := Nat.exists_eq_succ_of_ne_zero (show fuel ≠ 0 by omega)
    rw [topologicalTasksWhile, if_pos (by omega), topologicalTasksLoop_succ]
    cases tasks.find? (Ready ordered ·) with
    | none => rfl
    | some next =>
      dsimp only
      by_cases hkn : ∀ dependency ∈ next.dependsOn, dependency ∈ tasks.map (·.id)
      · rw [if_pos hkn, require, if_pos hkn]
        exact ih (by rw [length_append, length_singleton]; omega) (by omega)
      · rw [if_neg hkn, require, if_neg hkn]
        rfl

theorem topologicalTasksLoop_firstPicks {fuel : ℕ} (h : topologicalTasksLoop tasks fuel ordered = .ok order) :
    ∃ picks, order = ordered ++ picks ∧ FirstPicks Ready tasks ordered picks ∧ picks.length = fuel := by
  induction fuel generalizing ordered with
  | zero =>
    cases h
    exact ⟨[], (append_nil _).symm, .nil, rfl⟩
  | succ fuel ih =>
    rw [topologicalTasksLoop_succ] at h
    split at h
    · cases h
    · rename_i next hnext
      rw [bind_ok_iff] at h
      obtain ⟨_, -, h⟩ := h
      obtain ⟨picks, rfl, hpic, hlen⟩ := ih h
      refine ⟨next :: picks, ?_, .cons hnext hpic, ?_⟩
      · rw [append_assoc, singleton_append]
      · rw [length_cons, hlen]

theorem topologicalTasksLoop_total (hwell : WellOrdered tasks) {fuel : ℕ} (hsub : ordered ⊆ tasks)
    (hdst : (ordered.map (·.id)).Nodup) (hfuel : ordered.length + fuel = tasks.length) :
    ∃ order, topologicalTasksLoop tasks fuel ordered = .ok order := by
  induction fuel generalizing ordered with
  | zero => exact ⟨ordered, rfl⟩
  | succ fuel ih =>
    have hleft : ∃ taskId ∈ tasks.map (·.id), taskId ∉ ordered.map (·.id) := by
      by_contra hall
      push Not at hall
      have := (hwell.distinct.subperm hall).length_le
      rw [length_map, length_map] at this
      omega
    obtain ⟨_, hmem, hnot⟩ := hleft
    obtain ⟨_, hmem, hnot, hrdy⟩ := exists_ready hwell.acyclic (l := tasks.map (·.id)) (by
      rintro _ - dependency ⟨task, htask, -, hdep⟩
      exact hwell.known task htask dependency hdep) hmem hnot
    obtain ⟨task, htask, rfl⟩ := mem_map.mp hmem
    have hsome : (tasks.find? (Ready ordered ·)).isSome = true := by
      rw [List.find?_isSome]
      exact ⟨task, htask, decide_eq_true ⟨hnot, fun dependency h => hrdy dependency ⟨task, htask, rfl, h⟩⟩⟩
    obtain ⟨next, hnext⟩ := Option.isSome_iff_exists.mp hsome
    have hmay := List.find?_some hnext
    rw [decide_eq_true_eq] at hmay
    have hin := mem_of_find?_eq_some hnext
    rw [topologicalTasksLoop_succ, hnext]
    dsimp only
    rw [require, if_pos (hwell.known next hin)]
    refine ih (append_subset.mpr ⟨hsub, cons_subset.mpr ⟨hin, nil_subset _⟩⟩) ?_ ?_
    · rw [map_append, map_singleton, nodup_append]
      refine ⟨hdst, nodup_singleton _, fun a ha b hb => ?_⟩
      rw [mem_singleton] at hb
      rintro rfl
      exact hmay.1 (hb ▸ ha)
    · rw [length_append, length_singleton]
      omega

/-! ### The order -/

variable {picks : List Contract}

theorem nodup_of_picks (h : Picks Ready ordered picks)
    (hdst : (ordered.map (·.id)).Nodup) : ((ordered ++ picks).map (·.id)).Nodup := by
  induction h with
  | nil =>
    rw [append_nil]
    exact hdst
  | @cons ordered picks task hrdy _ ih =>
    rw [← singleton_append, ← append_assoc]
    refine ih ?_
    rw [map_append, map_singleton, nodup_append]
    refine ⟨hdst, nodup_singleton _, fun a ha b hb => ?_⟩
    rw [mem_singleton] at hb
    rintro rfl
    exact hrdy.1 (hb ▸ ha)

theorem dependencies_of_picks (h : Picks Ready ordered picks) : ∀ before task after, picks = before ++ task :: after →
      ∀ dependency ∈ task.dependsOn, dependency ∈ (ordered ++ before).map (·.id) := by
  induction h with
  | nil =>
    intro before task after heq
    exact absurd heq.symm (by simp)
  | @cons ordered picks first hrdy _ ih =>
    intro before task after heq dependency hdep
    cases before with
    | nil =>
      obtain ⟨rfl, -⟩ := cons_eq_cons.mp heq
      rw [append_nil]
      exact hrdy.2 dependency hdep
    | cons first' before =>
      rw [cons_append, cons_eq_cons] at heq
      obtain ⟨rfl, heq⟩ := heq
      have := ih before task after heq dependency hdep
      rwa [append_assoc, singleton_append] at this

theorem picks_of_dependenciesFirst (h : DependenciesFirst (ordered ++ picks))
    (hdst : ((ordered ++ picks).map (·.id)).Nodup) : Picks Ready ordered picks := by
  induction picks generalizing ordered with
  | nil => exact .nil
  | cons task picks ih =>
    refine .cons ⟨fun hmem => ?_, fun dependency => h ordered task picks rfl dependency⟩ (ih ?_ ?_)
    · rw [map_append, nodup_append] at hdst
      exact hdst.2.2 _ hmem _ (mem_map_of_mem (mem_cons_self ..)) rfl
    · rwa [append_assoc, singleton_append]
    · rwa [append_assoc, singleton_append]

theorem topological_of_picks (hdst : (tasks.map (·.id)).Nodup) (h : Picks Ready ordered picks) (hsub : picks ⊆ tasks)
    (hord : Topological (DependsOn tasks) (ordered.map (·.id))) :
    Topological (DependsOn tasks) ((ordered ++ picks).map (·.id)) := by
  induction h with
  | nil =>
    rw [append_nil]
    exact hord
  | @cons ordered picks task hrdy _ ih =>
    obtain ⟨htask, hsub⟩ := cons_subset.mp hsub
    rw [← singleton_append, ← append_assoc]
    refine ih hsub ?_
    rw [map_append, map_singleton]
    refine .snoc hord ?_
    rintro dependency ⟨task', htask', hid, hdep⟩
    rw [inj_on_of_nodup_map hdst htask' htask hid] at hdep
    exact hrdy.2 dependency hdep

theorem stableTopologicalTasks_perm (h : stableTopologicalTasks tasks = .ok order) :
    order.Perm tasks ∧ FirstPicks Ready tasks [] order := by
  obtain ⟨picks, rfl, hpic, hlen⟩ := topologicalTasksLoop_firstPicks h
  have hdst := nodup_of_picks hpic.admitted nodup_nil
  rw [nil_append] at hdst
  exact ⟨((hdst.of_map _).subperm hpic.subset).perm_of_length_le (Nat.le_of_eq hlen.symm), hpic⟩

theorem wellOrdered_of_stableTopologicalTasks (h : stableTopologicalTasks tasks = .ok order) :
    WellOrdered tasks ∧ DependenciesFirst order := by
  obtain ⟨hperm, hpic⟩ := stableTopologicalTasks_perm h
  have hfst : DependenciesFirst order := dependencies_of_picks hpic.admitted
  have hdst : (tasks.map (·.id)).Nodup := ((hperm.map _).nodup_iff).mp (nodup_of_picks hpic.admitted nodup_nil)
  refine ⟨⟨hdst, fun task htask dependency hdep => ?_, ?_⟩, hfst⟩
  · obtain ⟨before, after, rfl⟩ := append_of_mem (hperm.mem_iff.mpr htask)
    have hbef := hfst before task after rfl dependency hdep
    refine ((hperm.map _).mem_iff).mp ?_
    rw [map_append]
    exact mem_append_left _ hbef
  · have hord := topological_of_picks hdst hpic.admitted hperm.subset .nil
    refine hord.acyclic ?_
    rintro _ _ ⟨task, htask, rfl, -⟩
    exact mem_map_of_mem (hperm.mem_iff.mpr htask)

/-- **The stable topological order.** It exists exactly for well ordered requests; it is the first of
all orders of the tasks that put dependencies first; and the loop ends on every request. -/
theorem stableTopologicalTasks_exact (tasks : List Contract) :
    ((∃ order, stableTopologicalTasks tasks = .ok order) ↔ WellOrdered tasks) ∧
    (∀ order, stableTopologicalTasks tasks = .ok order → order.Perm tasks ∧ DependenciesFirst order ∧
      ∀ other, other.Perm tasks → DependenciesFirst other → LexLE (positions tasks order) (positions tasks other)) ∧
    ∀ fuel, tasks.length < fuel → topologicalTasksWhile tasks fuel [] = some (stableTopologicalTasks tasks) := by
  refine ⟨⟨?_, fun hwell => ?_⟩, fun order horde => ?_, fun fuel hfuel => ?_⟩
  · rintro ⟨order, horde⟩
    exact (wellOrdered_of_stableTopologicalTasks horde).1
  · exact topologicalTasksLoop_total hwell (nil_subset _) nodup_nil (Nat.zero_add _)
  · obtain ⟨hperm, hpic⟩ := stableTopologicalTasks_perm horde
    obtain ⟨hwell, hfst⟩ := wellOrdered_of_stableTopologicalTasks horde
    refine ⟨hperm, hfst, fun other hoth hothe => ?_⟩
    have hdst : (other.map (·.id)).Nodup := ((hoth.map _).nodup_iff).mpr hwell.distinct
    refine hpic.le (picks_of_dependenciesFirst hothe hdst) hoth.subset ?_
    rw [hperm.length_eq, hoth.length_eq]
  · exact topologicalTasksWhile_eq (Nat.zero_add _) hfuel

/-- **The ledger and the scheduler agree** on which requests have an order, and on the order. -/
theorem topological_orders_agree (request : Request) :
    (stableTopologicalTaskIds request).toOption = (stableTopologicalTasks request.tasks).toOption.map (·.map (·.id)) := by
  have hloop : ∀ (fuel : ℕ) (ordered : List Contract), ordered ⊆ request.tasks →
      (topologicalLoop request.tasks fuel (ordered.map (·.id))).toOption =
        (topologicalTasksLoop request.tasks fuel ordered).toOption.map (·.map (·.id)) := by
    intro fuel
    induction fuel with
    | zero => exact fun ordered _ => rfl
    | succ fuel ih =>
      intro ordered hsub
      have hfind : request.tasks.find? (fun task => task.id ∉ ordered.map (·.id) ∧ ∀ dependency ∈ task.dependsOn,
          dependency ∈ ordered.map (·.id)) = request.tasks.find? (Ready ordered ·) := rfl
      rw [topologicalLoop, topologicalTasksLoop_succ, hfind]
      cases hnext : request.tasks.find? (Ready ordered ·) with
      | none => rfl
      | some next =>
        have hready : Ready ordered next := by simpa using find?_some hnext
        have hknown : ∀ dependency ∈ next.dependsOn, dependency ∈ request.tasks.map (·.id) := fun dependency hdep =>
          map_subset _ hsub (hready.2 dependency hdep)
        have hrest := ih (ordered ++ [next]) (append_subset.mpr ⟨hsub, by simpa using mem_of_find?_eq_some hnext⟩)
        rw [map_append] at hrest
        simp only [require, if_pos hknown]
        exact hrest
  exact hloop request.tasks.length [] (nil_subset _)

end EasyPi.Subagent
