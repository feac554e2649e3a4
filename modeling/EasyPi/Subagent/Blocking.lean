/-
# Blocking dependents

`blockDagDescendants` of `packages/subagent/src/ledger.ts` blocks, turn after
turn, every pending task with a negative prerequisite: one that failed, was
cancelled or is blocked, or whose accepted work was judged rejected or
inconclusive. Each turn but the last blocks a pending task, so the loop ends, and
what it blocks is exactly the pending tasks from which a path of pending tasks
leads to a negative one (`Doomed`).
-/
import EasyPi.Lib.Pointwise
import EasyPi.Subagent.Ledger

namespace EasyPi.Subagent

open List

def BlockMove (t t' : Task) : Prop := t' = t ∨ (t.status = .pending ∧ t' = t.blocked)

variable (run : Run)

/-- A row of the dependency table says that one task needs another. -/
def Run.needs (t u : Task) : Prop := t ∈ run.tasks ∧ u ∈ run.tasks ∧ (t.taskId, u.taskId) ∈ run.dependencies

/-- A path of pending tasks leads from the task to a negative one. -/
inductive Doomed (run : Run) : Task → Prop
  | negative {t u : Task} (needs : run.needs t u) (negative : u.negative) : Doomed run t
  | through {t u : Task} (needs : run.needs t u) (pending : u.status = .pending) (doomed : Doomed run u) : Doomed run t

theorem blockable_iff {run : Run} {t : Task} (ht : t ∈ run.tasks) :
    run.blockable t ↔ t.status = .pending ∧ ∃ u, run.needs t u ∧ u.negative := by
  simp only [Run.blockable, Bool.and_eq_true, decide_eq_true_eq, any_eq_true, Prod.exists]
  constructor
  · rintro ⟨hp, a, b, hd, rfl, u, hu, rfl, hn⟩
    exact ⟨hp, u, ⟨ht, hu, hd⟩, hn⟩
  · rintro ⟨hp, u, ⟨-, hu, hd⟩, hn⟩
    exact ⟨hp, _, _, hd, rfl, u, hu, rfl, hn⟩

theorem Task.negative_blocked (t : Task) : t.blocked.negative := by
  simp [Task.negative, Task.blocked]

theorem Task.not_negative_of_pending {t : Task} (h : t.status = .pending) : t.negative = false := by
  simp [Task.negative, h]

/-! ### The loop ends -/

theorem blockRound_moves : Forall₂ BlockMove run.tasks run.blockRound.tasks := by
  refine Pointwise.map_right _ fun t ht => ?_
  by_cases h : run.blockable t
  · rw [if_pos h]
    exact .inr ⟨((blockable_iff ht).mp h).1, rfl⟩
  · rw [if_neg h]
    exact .inl rfl

def Run.pendingCount : ℕ := run.tasks.countP (·.status = .pending)

theorem blockRound_pendingCount {run : Run} (h : run.tasks.any run.blockable) :
    run.blockRound.pendingCount < run.pendingCount := by
  obtain ⟨t, ht, hb⟩ := any_eq_true.mp h
  obtain ⟨before, after, hspl⟩ := append_of_mem ht
  have hle : ∀ l : List Task, (l.map fun t => if run.blockable t then t.blocked else t).countP
      (·.status = .pending) ≤ l.countP (·.status = .pending) := by
    intro l
    rw [countP_map]
    refine countP_mono_left fun u _ hu => ?_
    by_cases hub : run.blockable u
    · simp [hub, Task.blocked] at hu
    · simpa [hub] using hu
  have hp := ((blockable_iff ht).mp hb).1
  change (run.tasks.map _).countP _ < run.tasks.countP _
  rw [hspl, map_append, countP_append, countP_append, map_cons,
    countP_cons, countP_cons, if_pos hb, if_neg (by simp [Task.blocked]), if_pos (by simp [hp])]
  have h1 := hle before
  have h2 := hle after
  omega

theorem blockLoop_ends {fuel : ℕ} {run : Run} (h : run.pendingCount ≤ fuel) :
    ∃ run', blockLoop (fuel + 1) run = some run' := by
  induction fuel generalizing run with
  | zero =>
    refine ⟨run, ?_⟩
    rw [blockLoop, if_neg]
    intro hany
    have := blockRound_pendingCount hany
    omega
  | succ fuel ih =>
    rw [blockLoop]
    split
    · rename_i hany
      have := blockRound_pendingCount hany
      exact ih (by omega)
    · exact ⟨run, rfl⟩

/-- **`blockDagDescendants` ends.** -/
theorem blockDagDescendants_ends : blockLoop (run.tasks.length + 1) run = some (blockDagDescendants run) := by
  obtain ⟨run', h⟩ := @blockLoop_ends run.tasks.length run countP_le_length
  rw [blockDagDescendants, h, Option.getD_some]

theorem blockMoves_trans {l₁ l₂ l₃ : List Task} (h : Forall₂ BlockMove l₁ l₂)
    (h' : Forall₂ BlockMove l₂ l₃) : Forall₂ BlockMove l₁ l₃ := by
  refine (Pointwise.comp h h').imp fun t u hu => ?_
  obtain ⟨v, rfl | ⟨hp, rfl⟩, rfl | ⟨hp', rfl⟩⟩ := hu
  · exact .inl rfl
  · exact .inr ⟨hp', rfl⟩
  · exact .inr ⟨hp, rfl⟩
  · exact .inr ⟨hp, rfl⟩

theorem blockLoop_moves {fuel : ℕ} {run run' : Run} (h : blockLoop fuel run = some run') :
    Forall₂ BlockMove run.tasks run'.tasks ∧ run' = { run with tasks := run'.tasks, events := run'.events } ∧
      ∀ t ∈ run'.tasks, run'.blockable t = false := by
  induction fuel generalizing run with
  | zero => cases h
  | succ fuel ih =>
    rw [blockLoop] at h
    split at h
    · obtain ⟨hmv, heq, hcl⟩ := ih h
      exact ⟨blockMoves_trans (blockRound_moves run) hmv, heq, hcl⟩
    · rename_i hany
      cases h
      refine ⟨forall₂_same.mpr fun _ _ => .inl rfl, rfl, fun t ht => ?_⟩
      simpa using fun hb => hany (any_eq_true.mpr ⟨t, ht, hb⟩)

theorem blockDagDescendants_moves :
    Forall₂ BlockMove run.tasks (blockDagDescendants run).tasks ∧ blockDagDescendants run = { run with
        tasks := (blockDagDescendants run).tasks, events := (blockDagDescendants run).events } :=
  have h := blockLoop_moves (blockDagDescendants_ends run)
  ⟨h.1, h.2.1⟩

theorem blockDagDescendants_closed :
    ∀ t ∈ (blockDagDescendants run).tasks, (blockDagDescendants run).blockable t = false :=
  (blockLoop_moves (blockDagDescendants_ends run)).2.2

/-! ### What it blocks -/

/-- A task and what became of it, while only doomed tasks are blocked. -/
def DoomMove (t t' : Task) : Prop := t' = t ∨ (t.status = .pending ∧ Doomed run t ∧ t' = t.blocked)

theorem DoomMove.taskId {run : Run} {t t' : Task} (h : DoomMove run t t') : t'.taskId = t.taskId := by
  obtain rfl | ⟨-, -, rfl⟩ := h <;> rfl

theorem blockRound_dooms {run mid : Run} (hd : mid.dependencies = run.dependencies)
    (h : Forall₂ (DoomMove run) run.tasks mid.tasks) : Forall₂ (DoomMove run) run.tasks mid.blockRound.tasks := by
  have hrou : Forall₂ (fun t t' => t ∈ mid.tasks ∧
      t' = if mid.blockable t then t.blocked else t) mid.tasks mid.blockRound.tasks :=
    Pointwise.map_right _ fun t ht => ⟨ht, rfl⟩
  refine Pointwise.imp_mem (Pointwise.comp h hrou) fun t ht t' hcomp => ?_
  obtain ⟨m, hm, hmem, rfl⟩ := hcomp
  by_cases hb : mid.blockable m
  · rw [if_pos hb]
    obtain ⟨hp, u', ⟨-, hu', hdep⟩, hneg⟩ := (blockable_iff hmem).mp hb
    obtain rfl | ⟨-, -, rfl⟩ := hm
    · obtain ⟨u, hu, hum⟩ := Pointwise.left h hu'
      have hnee : run.needs m u := ⟨ht, hu, by rw [← hum.taskId, ← hd]; exact hdep⟩
      refine .inr ⟨hp, ?_, rfl⟩
      obtain rfl | ⟨hup, hdoom, rfl⟩ := hum
      · exact .negative hnee hneg
      · exact .through hnee hup hdoom
    · cases hp
  · rw [if_neg hb]
    exact hm

theorem blockLoop_dooms {fuel : ℕ} {run mid run' : Run} (hd : mid.dependencies = run.dependencies)
    (h : Forall₂ (DoomMove run) run.tasks mid.tasks) (hl : blockLoop fuel mid = some run') :
    Forall₂ (DoomMove run) run.tasks run'.tasks := by
  induction fuel generalizing mid with
  | zero => cases hl
  | succ fuel ih =>
    rw [blockLoop] at hl
    split at hl
    · exact @ih mid.blockRound hd (blockRound_dooms hd h) hl
    · cases hl
      exact h

theorem doomed_blocked {run run' : Run} (hd : run'.dependencies = run.dependencies)
    (h : Forall₂ BlockMove run.tasks run'.tasks)
    (hcl : ∀ t ∈ run'.tasks, run'.blockable t = false) {t : Task} (hdoom : Doomed run t)
    (hp : t.status = .pending) : t.blocked ∈ run'.tasks ∧ t ∉ run'.tasks := by
  have key : ∀ u' ∈ run'.tasks, u'.negative → ∀ t, t ∈ run.tasks → (t.taskId, u'.taskId) ∈
      run.dependencies → t.status = .pending → t.blocked ∈ run'.tasks ∧ t ∉ run'.tasks := by
    intro u' hu' hneg t ht hdep hp
    have hnot : t ∉ run'.tasks := by
      intro ht'
      have := hcl t ht'
      rw [← Bool.not_eq_true] at this
      exact this ((blockable_iff ht').mpr ⟨hp, u', ⟨ht', hu', hd ▸ hdep⟩, hneg⟩)
    obtain ⟨t', ht', rfl | ⟨-, rfl⟩⟩ := Pointwise.right h ht
    · exact absurd ht' hnot
    · exact ⟨ht', hnot⟩
  induction hdoom with
  | @negative t u needs negative =>
    obtain ⟨ht, hu, hdep⟩ := needs
    obtain ⟨u', hu', rfl | ⟨hup, rfl⟩⟩ := Pointwise.right h hu
    · exact key u' hu' negative t ht hdep hp
    · rw [Task.not_negative_of_pending hup] at negative
      cases negative
  | @through t u needs pending _ ih =>
    obtain ⟨ht, hu, hdep⟩ := needs
    exact key u.blocked (ih pending).1 u.negative_blocked t ht hdep hp

/-- **Blocking is exact.** A task is blocked when it is pending and doomed, and is left alone
otherwise. -/
theorem blockDagDescendants_exact : Forall₂ (fun t t' => (t.status = .pending ∧ Doomed run t ∧ t' = t.blocked) ∨
      (¬ (t.status = .pending ∧ Doomed run t) ∧ t' = t)) run.tasks (blockDagDescendants run).tasks := by
  obtain ⟨hmv, heq, hcl⟩ := blockLoop_moves (blockDagDescendants_ends run)
  have hdeps : (blockDagDescendants run).dependencies = run.dependencies := by rw [heq]
  have hdoo := blockLoop_dooms rfl (forall₂_same.mpr fun _ _ => .inl rfl) (blockDagDescendants_ends run)
  refine Pointwise.imp_mem_right hdoo fun t t' ht' h => ?_
  obtain rfl | h := h
  · refine .inr ⟨fun hdoom => ?_, rfl⟩
    exact (doomed_blocked hdeps hmv hcl hdoom.2 hdoom.1).2 ht'
  · exact .inl h

end EasyPi.Subagent
