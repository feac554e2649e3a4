/-
# The graph of a run has no cycle

`createDagRun` of `packages/subagent/src/ledger.ts` visits the tasks of a request
depth first and throws when it comes back to a task it is visiting;
`expandDagRun` runs `stableTopologicalTaskIds`, which picks a task whose
dependencies are picked, until all are. Either way an accepted request comes with
a topological order of all its tasks (`Orderable`), so its dependencies are tasks
of the request and no task depends on itself.
-/
import EasyPi.Lib.Topological
import EasyPi.Subagent.Reachable

namespace EasyPi.Subagent

open List

variable {tasks : List Contract}

/-- One task of a request names another among its dependencies. -/
def DependsOn (tasks : List Contract) (taskId dependency : String) : Prop :=
  ∃ task ∈ tasks, task.id = taskId ∧ dependency ∈ task.dependsOn

/-- Dependencies are tasks, and all tasks can be put in an order in which they come first. -/
structure Orderable (tasks : List Contract) : Prop where
  known : ∀ task ∈ tasks, ∀ dependency ∈ task.dependsOn, dependency ∈ tasks.map (·.id)
  order : ∃ order, Topological (DependsOn tasks) order ∧ ∀ task ∈ tasks, task.id ∈ order

theorem Orderable.acyclic (h : Orderable tasks) (taskId : String) :
    ¬ Relation.TransGen (DependsOn tasks) taskId taskId := by
  obtain ⟨order, hord, hall⟩ := h.order
  refine hord.acyclic ?_ taskId
  rintro _ _ ⟨task, ht, rfl, -⟩
  exact hall task ht

theorem find?_eq_of_nodup (hn : (tasks.map (·.id)).Nodup) {task : Contract} (ht : task ∈ tasks) :
    tasks.find? (·.id = task.id) = some task := by
  cases hf : tasks.find? (·.id = task.id) with
  | none => simpa using List.find?_eq_none.mp hf task ht
  | some found =>
    rw [inj_on_of_nodup_map hn (mem_of_find?_eq_some hf) ht
      (by simpa using List.find?_some hf)]

theorem visit_ordered (hn : (tasks.map (·.id)).Nodup) : ∀ {fuel : ℕ}
    {visiting visited visited' : List String} {taskId : String}, Topological (DependsOn tasks) visited →
    visit tasks fuel visiting visited taskId = .ok visited' →
      Topological (DependsOn tasks) visited' ∧ taskId ∈ visited' ∧ visited ⊆ visited'
  | 0, _, _, _, _, _, h => by cases h
  | fuel + 1, visiting, visited, visited', taskId, hord, h => by
    -- the loop over the dependencies, each of which is finished after its visit
    have loop : ∀ (dependencies : List String) {visited visited' : List String}, Topological (DependsOn tasks) visited →
        dependencies.foldlM (visit tasks fuel (taskId :: visiting)) visited = .ok visited' →
        Topological (DependsOn tasks) visited' ∧ (∀ d ∈ dependencies, d ∈ visited') ∧ visited ⊆ visited' := by
      intro dependencies
      induction dependencies with
      | nil =>
        intro visited visited' hord h
        cases h
        exact ⟨hord, by simp, fun _ h => h⟩
      | cons d dependencies ih =>
        intro visited visited' hord h
        rw [foldlM_cons, bind_ok_iff] at h
        obtain ⟨mid, hd, h⟩ := h
        obtain ⟨hmid, hdmid, hsub⟩ := visit_ordered hn hord hd
        obtain ⟨hord', hall, hsub'⟩ := ih hmid h
        refine ⟨hord', ?_, fun x hx => hsub' (hsub hx)⟩
        rw [forall_mem_cons]
        exact ⟨hsub' hdmid, hall⟩
    rw [visit] at h
    simp only [ite_ok_iff, bind_ok_iff, pure_ok_iff] at h
    obtain ⟨hin, h⟩ | ⟨-, ⟨-, h⟩ | ⟨-, mid, hloop, rfl⟩⟩ := h
    · cases h
      exact ⟨hord, hin, fun _ h => h⟩
    · cases h
    · obtain ⟨hmid, hall, hsub⟩ := loop _ hord hloop
      refine ⟨.snoc hmid ?_, by simp, fun x hx => mem_append_left _ (hsub hx)⟩
      rintro b ⟨task, ht, rfl, hb⟩
      refine hall b ?_
      rw [find?_eq_of_nodup hn ht]
      exact hb

theorem visitAll_ordered (hn : (tasks.map (·.id)).Nodup) {fuel : ℕ} :
    ∀ {some : List Contract} {visited visited' : List String}, Topological (DependsOn tasks) visited →
      some.foldlM (fun visited task => visit tasks fuel [] visited task.id) visited = .ok visited' →
      Topological (DependsOn tasks) visited' ∧ (∀ task ∈ some, task.id ∈ visited') ∧ visited ⊆ visited'
  | [], _, _, hord, h => by
    cases h
    exact ⟨hord, by simp, fun _ h => h⟩
  | task :: rest, visited, visited', hord, h => by
    rw [foldlM_cons, bind_ok_iff] at h
    obtain ⟨mid, hv, h⟩ := h
    obtain ⟨hmid, hin, hsub⟩ := visit_ordered hn hord hv
    obtain ⟨hord', hall, hsub'⟩ := visitAll_ordered hn hmid h
    refine ⟨hord', ?_, fun x hx => hsub' (hsub hx)⟩
    rw [forall_mem_cons]
    exact ⟨hsub' hin, hall⟩

/-- **A request `createDagRun` accepts can be ordered.** -/
theorem orderable_of_validateRequest {request : Request} (h : validateRequest request = .ok ()) :
    Orderable request.tasks := by
  obtain ⟨hn, -, htks, visited, hvis⟩ := validateRequest_ok h
  obtain ⟨hord, hall, -⟩ := visitAll_ordered hn .nil hvis
  exact ⟨fun task ht => (htks task ht).2, visited, hord, hall⟩

theorem topologicalLoop_ordered (hn : (tasks.map (·.id)).Nodup) : ∀ {fuel : ℕ}
    {ordered ordered' : List String}, Topological (DependsOn tasks) ordered → ordered.Nodup →
    ordered ⊆ tasks.map (·.id) → topologicalLoop tasks fuel ordered = .ok ordered' →
      Topological (DependsOn tasks) ordered' ∧ ordered'.Nodup ∧ ordered' ⊆ tasks.map (·.id) ∧
        ordered'.length = ordered.length + fuel
  | 0, _, _, hord, hnd, hsub, h => by
    cases h
    exact ⟨hord, hnd, hsub, rfl⟩
  | fuel + 1, ordered, ordered', hord, hnd, hsub, h => by
    rw [topologicalLoop] at h
    split at h
    · cases h
    · rename_i next hnext
      have hmem := mem_of_find?_eq_some hnext
      have hrdy := List.find?_some hnext
      simp only [decide_eq_true_eq] at hrdy
      have hord' : Topological (DependsOn tasks) (ordered ++ [next.id]) := by
        refine .snoc hord ?_
        rintro b ⟨task, ht, hid, hb⟩
        rw [inj_on_of_nodup_map hn ht hmem hid] at hb
        exact hrdy.2 b hb
      have hnd' : (ordered ++ [next.id]).Nodup := by
        rw [nodup_append]
        refine ⟨hnd, nodup_singleton _, fun a ha b hb => ?_⟩
        rw [mem_singleton] at hb
        rintro rfl
        exact hrdy.1 (hb ▸ ha)
      have hsub' : ordered ++ [next.id] ⊆ tasks.map (·.id) := by
        intro x hx
        rw [mem_append, mem_singleton] at hx
        rcases hx with hx | rfl
        · exact hsub hx
        · exact mem_map_of_mem hmem
      obtain ⟨h1, h2, h3, h4⟩ := topologicalLoop_ordered hn hord' hnd' hsub' h
      refine ⟨h1, h2, h3, ?_⟩
      rw [h4, length_append, length_singleton]
      omega

/-- **A request whose tasks `stableTopologicalTaskIds` orders can be ordered.** -/
theorem orderable_of_stableTopologicalTaskIds {request : Request} {ordered : List String}
    (hn : (request.tasks.map (·.id)).Nodup) (h : stableTopologicalTaskIds request = .ok ordered) :
    Orderable request.tasks := by
  obtain ⟨hord, hnd, hsub, hlen⟩ := topologicalLoop_ordered hn .nil nodup_nil (by simp) h
  have hperm : ordered.Perm (request.tasks.map (·.id)) := (subperm_of_subset hnd hsub).perm_of_length_le (by simp [hlen])
  have hall : ∀ task ∈ request.tasks, task.id ∈ ordered := fun task ht =>
    hperm.mem_iff.mpr (mem_map_of_mem ht)
  refine ⟨fun task ht dependency hd => ?_, ordered, hord, hall⟩
  exact hsub (hord.mem_of_rel (hall task ht) ⟨task, ht, rfl, hd⟩)

/-- **The graph of every run can be ordered.** -/
theorem orderable_of_reachable {P : RetryPolicy} {ledger : Ledger} (h : Reachable P ledger)
    {runId : String} {run : Run} (hrun : ledger.runs.get? runId = some run) : Orderable run.request.tasks := by
  refine reachable_run (I := fun run => Orderable run.request.tasks) ?_ ?_ h hrun
  · intro runId request usage hv
    exact orderable_of_validateRequest hv
  · intro R run run' hi hm hord
    cases hm with
    | columns graph | start graph | succeed graph | claim graph | work graph | pause graph | terminate graph =>
      rw [graph.request]; exact hord
    | expand expanded unfinished status waiting paused done given valid rows runId request =>
      obtain ⟨-, hn, -, -, -, ordered, horde⟩ := validateExpansion_ok valid
      rw [request]
      exact orderable_of_stableTopologicalTaskIds hn horde

end EasyPi.Subagent
