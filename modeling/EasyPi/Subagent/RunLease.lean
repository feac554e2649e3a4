/-
# Run leases fence stale controllers

A run is owned through three columns: `owner_id`, `owner_epoch` and
`run_lease_expires_at` of `dag_runs`. Only an acquisition writes the epoch, and
it writes one more than the last; an acquisition, a release, a pause and the end
of a run all leave a row that no lease of the old epoch matches. A lease of
epoch `e` is stale when the run has a later epoch, or has epoch `e` and no owner
(`Stale`); every operation keeps it stale, and an operation given a stale lease
changes nothing, however late it comes and whatever its clock says.
-/
import EasyPi.Subagent.Reachable

namespace EasyPi.Subagent

variable {P : RetryPolicy} {ledger ledger' : Ledger} {run run' : Run} {lease : DagRunLease} {now : ℤ} {op : Op}

theorem assertDagRunMutationLease_some {terminal : Bool} :
    assertDagRunMutationLease run now (some lease) terminal = .ok () ↔ run.holds lease ∧ now < lease.leaseExpiresAt := by
  unfold assertDagRunMutationLease Run.holds
  rw [if_neg (by simp)]
  cases ho : run.ownerId with
  | none => simp
  | some ownerId =>
    cases hx : run.runLeaseExpiresAt with
    | none => simp
    | some leaseExpiresAt =>
      simp only [ite_ok_iff, reduceCtorEq, and_false, false_or, and_true, not_or, not_not, not_le, Option.some.injEq]
      constructor
      · rintro ⟨rfl, he, rfl, h⟩
        exact ⟨⟨rfl, he.symm, rfl⟩, h⟩
      · rintro ⟨⟨rfl, he, rfl⟩, h⟩
        exact ⟨rfl, he.symm, rfl, h⟩

theorem assertDagRunMutationLease_terminal (h : assertDagRunMutationLease run now none true = .ok ()) : False := by
  unfold assertDagRunMutationLease at h
  rw [if_pos ⟨rfl, rfl⟩] at h
  cases h

theorem holds_unique {lease lease' : DagRunLease} (h : run.holds lease) (h' : run.holds lease') : lease = lease' := by
  obtain ⟨h1, h2, h3⟩ := h
  obtain ⟨h1', h2', h3'⟩ := h'
  rw [h1, Option.some.injEq] at h1'
  rw [h3, Option.some.injEq] at h3'
  cases lease
  cases lease'
  simp_all

/-! ### Which calls can change a row -/

variable {runId : String}

theorem Ledger.put_of_get? (h : ledger.runs.get? runId = some run) : ledger.put runId run = ledger := by
  unfold Ledger.put
  rw [OrdMap.set_of_get? h]

theorem transaction_held {α : Type} {runId : String} {lease? : Option DagRunLease}
    {rest : Run → Unit → Except String (α × Run)} {a : α}
    (h : transaction runId (fun run => assertDagRunMutationLease run now lease? >>= rest run) ledger = .ok (a, ledger')) :
    ∃ run, ledger.runs.get? runId = some run ∧ assertDagRunMutationLease run now lease? = .ok () := by
  obtain ⟨run, run', hrun, h, -⟩ := transaction_eq_ok.mp h
  obtain ⟨_, hheld, -⟩ := bind_ok_iff.mp h
  exact ⟨run, hrun, hheld⟩

/-- A call that carries a lease changes something only if the run is held under it. -/
theorem exec_holds (h : op.exec P ledger = .ok ledger') (hl : op.lease? = some lease) :
    ledger' = ledger ∨ ∃ run, ledger.runs.get? op.runId = some run ∧ run.holds lease := by
  have guarded : ∀ {runId : String} {n : ℤ}, (∃ r, ledger.runs.get? runId = some r ∧
      assertDagRunMutationLease r n (some lease) = .ok ()) → ∃ r, ledger.runs.get? runId = some r ∧ r.holds lease := by
    rintro runId n ⟨r, hr, ha⟩
    exact ⟨r, hr, (assertDagRunMutationLease_some.mp ha).1⟩
  cases op <;> cases hl <;> obtain ⟨_, h⟩ := exec_eq_ok h
  case expandDagRun =>
    obtain ⟨r, -, hr, hheld, -⟩ := expandDagRun_ok h
    exact .inr (guarded ⟨r, hr, hheld⟩)
  case heartbeatDagRunLease =>
    obtain ⟨-, rfl⟩ | ⟨r, hr, ⟨-, rfl⟩ | ⟨hh, -⟩⟩ := heartbeatDagRunLease_ok h
    · exact .inl rfl
    · exact .inl (Ledger.put_of_get? hr)
    · exact .inr ⟨r, hr, hh⟩
  case releaseDagRunLease =>
    obtain ⟨-, rfl⟩ | ⟨r, hr, ⟨-, rfl⟩ | ⟨hh, -⟩⟩ := releaseDagRunLease_ok h
    · exact .inl rfl
    · exact .inl (Ledger.put_of_get? hr)
    · exact .inr ⟨r, hr, hh⟩
  case clearDagRunPause =>
    obtain ⟨-, -, h⟩ := bind_ok_iff.mp h
    exact .inr (guarded (transaction_held h))
  case setDagRunStatus =>
    obtain ⟨r, r', hr, hmove, rfl⟩ := setDagRunStatus_ok h
    cases hmove with
    | same => exact .inl (Ledger.put_of_get? hr)
    | start _ held | succeed _ _ held | terminate _ _ _ _ _ held =>
      exact .inr ⟨r, hr, (assertDagRunMutationLease_some.mp held).1⟩
  case setDagRunUsage =>
    obtain ⟨-, -, h⟩ := bind_ok_iff.mp h
    exact .inr (guarded (transaction_held h))
  case reconcileDagRunAccounting =>
    obtain ⟨-, -, h⟩ := bind_ok_iff.mp h
    exact .inr (guarded (transaction_held h))
  case claimRunnableTasks =>
    obtain ⟨r, hr, hheld, -⟩ := claimRunnableTasks_ok h
    exact .inr (guarded ⟨r, hr, hheld⟩)
  case heartbeatAttempt =>
    obtain ⟨-, -, h⟩ := bind_ok_iff.mp h
    obtain ⟨-, -, h⟩ := bind_ok_iff.mp h
    exact .inr (guarded (transaction_held h))
  case checkpointAttempt =>
    obtain ⟨-, -, h⟩ := bind_ok_iff.mp h
    exact .inr (guarded (transaction_held h))
  case openDagProviderCircuit =>
    obtain ⟨-, -, h⟩ := bind_ok_iff.mp h
    obtain ⟨-, -, h⟩ := bind_ok_iff.mp h
    obtain ⟨-, -, h⟩ := bind_ok_iff.mp h
    obtain ⟨-, -, h⟩ := bind_ok_iff.mp h
    exact .inr (guarded (transaction_held h))
  case recordDagAttemptAccounting =>
    obtain ⟨-, -, h⟩ := bind_ok_iff.mp h
    obtain ⟨-, -, h⟩ := bind_ok_iff.mp h
    exact .inr (guarded (transaction_held h))
  case completeDagTask =>
    obtain ⟨r, -, -, hr, hheld, -⟩ := completeDagTask_ok h
    exact .inr (guarded ⟨r, hr, hheld⟩)
  case recoverDagRun =>
    obtain ⟨r, hr, hheld, -⟩ := recoverDagRun_ok h
    exact .inr (guarded ⟨r, hr, hheld⟩)
  case recordDagIntegration =>
    obtain ⟨-, -, h⟩ := bind_ok_iff.mp h
    obtain ⟨_, -, h⟩ := bind_ok_iff.mp h
    exact .inr (guarded (transaction_held h))
  case recordDagIntegrationFailure =>
    simp only [recordDagIntegrationFailure, bind_ok_iff] at h
    obtain ⟨-, -, -, -, -, -, -, -, -, -, h⟩ := h
    exact .inr (guarded (transaction_held h))

/-- No lease of this epoch can match the run any more. -/
def Stale (epoch : ℕ) (run : Run) : Prop := epoch ≤ run.ownerEpoch ∧ (run.ownerEpoch = epoch → run.ownerId = none)

theorem Stale.not_holds (h : Stale lease.epoch run) : ¬ run.holds lease := by
  rintro ⟨howne, hepo, -⟩
  rw [h.2 hepo] at howne
  cases howne

theorem LeaseMove.stale {epoch : ℕ} (hs : Stale epoch run) (h : LeaseMove run run') : Stale epoch run' := by
  obtain ⟨hle, hown⟩ := hs
  cases h with
  | same owner hepo expiry =>
    rw [Stale, hepo, owner]
    exact ⟨hle, hown⟩
  | acquire owner hepo =>
    rw [Stale, hepo]
    exact ⟨by omega, fun h => by omega⟩
  | renew owner hepo held =>
    rw [Stale, hepo]
    exact ⟨hle, fun h => absurd (hown h) held⟩
  | drop owner hepo =>
    rw [Stale, hepo]
    exact ⟨hle, fun _ => owner⟩

theorem LeaseMove.epoch_le (h : LeaseMove run run') : run.ownerEpoch ≤ run'.ownerEpoch := by
  cases h with
  | same owner hepo expiry => rw [hepo]
  | acquire owner hepo => omega
  | renew owner hepo held => rw [hepo]
  | drop owner hepo => rw [hepo]

theorem step_of_stale (hrun : ledger.runs.get? op.runId = some run) (hl : op.lease? = some lease)
    (hs : Stale lease.epoch run) : step P ledger op = ledger := by
  unfold step
  cases h : op.exec P ledger with
  | error e => rfl
  | ok ledger' =>
    obtain rfl | ⟨r, hr, hh⟩ := exec_holds h hl
    · rfl
    · rw [hrun] at hr
      cases hr
      exact absurd hh hs.not_holds

/-! ### Calls that fence -/

/-- A call that ends the lease a run was held under: another acquisition, a release, a pause, or
the end of the run. -/
inductive Fencing (ledger : Ledger) (runId : String) : Op → Prop
  | acquire {ownerId : String} {now leaseDurationMs : ℤ} {lease : DagRunLease} {ledger' : Ledger}
      (acquired : acquireDagRunLease runId ownerId now leaseDurationMs ledger = .ok (some lease, ledger')) :
      Fencing ledger runId (.acquireDagRunLease runId ownerId now leaseDurationMs)
  | release {lease : DagRunLease} {now : ℤ} {ledger' : Ledger}
      (released : releaseDagRunLease runId lease now ledger = .ok (true, ledger')) :
      Fencing ledger runId (.releaseDagRunLease runId lease now)
  | pause {now : ℤ} {ledger' : Ledger} {run : Run} (found : ledger.runs.get? runId = some run)
      (unpaused : run.pausedAt = none)
      (paused : markDagRunPaused runId now ledger = .ok (true, ledger')) :
      Fencing ledger runId (.markDagRunPaused runId now)
  | terminal {status : RunStatus} {now : ℤ} {lease : Option DagRunLease} {ledger' : Ledger}
      {run : Run} (found : ledger.runs.get? runId = some run) (unfinished : ¬ run.status.Terminal)
      (terminal : status.Terminal)
      (ended : setDagRunStatus runId status now lease ledger = .ok ((), ledger')) :
      Fencing ledger runId (.setDagRunStatus runId status now lease)

theorem step_of_exec (h : op.exec P ledger = .ok ledger') : step P ledger op = ledger' := by
  rw [step, h]

theorem Fencing.stale {epoch : ℕ} (h : Fencing ledger runId op)
    (hrun : ledger.runs.get? runId = some run) (he : epoch ≤ run.ownerEpoch) :
    ∃ run', (step P ledger op).runs.get? runId = some run' ∧ Stale epoch run' := by
  have put : ∀ {r : Run}, step P ledger op = ledger.put runId r → Stale epoch r →
      ∃ run', (step P ledger op).runs.get? runId = some run' ∧ Stale epoch run' := by
    intro r hr hs
    refine ⟨r, ?_, hs⟩
    rw [hr, Ledger.get?_put, if_pos rfl]
  cases h with
  | acquire acquired =>
    have hstep : step P ledger (.acquireDagRunLease runId _ _ _) = _ :=
      step_of_exec (congrArg (Except.map Prod.snd) acquired)
    obtain ⟨r, hr, ⟨hn, -⟩ | ⟨-, -, -, rfl⟩⟩ := acquireDagRunLease_ok acquired
    · cases hn
    · rw [hrun] at hr
      cases hr
      refine put hstep ⟨?_, fun h => ?_⟩
      · change epoch ≤ run.ownerEpoch + 1
        omega
      · change run.ownerEpoch + 1 = epoch at h
        omega
  | release released =>
    have hstep : step P ledger (.releaseDagRunLease runId _ _) = _ :=
      step_of_exec (congrArg (Except.map Prod.snd) released)
    obtain ⟨hn, -⟩ | ⟨r, hr, ⟨hn, -⟩ | ⟨-, -, -, rfl⟩⟩ := releaseDagRunLease_ok released
    · cases hn
    · cases hn
    · rw [hrun] at hr
      cases hr
      exact put hstep ⟨he, fun _ => rfl⟩
  | pause found unpaused paused =>
    have hstep : step P ledger (.markDagRunPaused runId _) = _ := step_of_exec (congrArg (Except.map Prod.snd) paused)
    obtain ⟨r, hr, ⟨hp, -⟩ | ⟨-, -, -, -, tasks, events, -, rfl⟩⟩ := markDagRunPaused_ok paused
    · rw [found] at hr
      cases hr
      exact absurd unpaused (hp rfl)
    · rw [hrun] at hr
      cases hr
      exact put hstep ⟨he, fun _ => rfl⟩
  | terminal found unfinished terminal ended =>
    have hstep : step P ledger (.setDagRunStatus runId _ _ _) = _ := step_of_exec (congrArg (Except.map Prod.snd) ended)
    obtain ⟨r, r', hr, hmove, rfl⟩ := setDagRunStatus_ok ended
    rw [found] at hr hrun
    cases hr
    cases hrun
    cases hmove with
    | same _ unmoved => exact absurd (unmoved ▸ terminal) unfinished
    | start => simp [RunStatus.Terminal] at terminal
    | succeed _ _ _ _ eq =>
      rw [eq] at hstep
      exact put hstep ⟨he, fun _ => rfl⟩
    | terminate _ fenced _ _ ends _ eq =>
      have hepo : fenced.ownerEpoch = run.ownerEpoch := by
        obtain ⟨-, hf⟩ | ⟨-, hf⟩ := ends <;>
        · rw [(fenceRun_ok hf).2]
      rw [eq] at hstep
      refine put hstep ⟨?_, fun _ => rfl⟩
      change epoch ≤ fenced.ownerEpoch
      rw [hepo]
      exact he

/-! ### The end of a run -/

theorem RowsMove.terminal {R : Rules} (h : RowsMove R run run') (ho : ¬ run.status.Terminal)
    (ht : run'.status.Terminal) : R.statuses run run'.status := by
  have running : ¬ RunStatus.running.Terminal := by decide
  cases h with
  | columns graph tasks status => exact absurd (status ▸ ht) ho
  | start graph tasks created status => exact absurd (status ▸ ht) running
  | succeed graph tasks _ status done given => exact status ▸ given
  | claim graph _ unpaused status | work graph _ status => exact absurd (status ▸ ht) running
  | pause graph unfinished status => exact absurd (status ▸ ht) ho
  | terminate graph unfinished status reason error ends given => exact given
  | expand expanded unfinished status => exact absurd (status ▸ ht) ho

theorem RowsMove.status_of_terminal {R : Rules} (h : RowsMove R run run')
    (ht : run.status.Terminal) : run'.status = run.status := by
  have unfinished : ¬ run.unfinished := by
    rcases ht with ht | ht | ht <;> simp [Run.unfinished, ht]
  cases h with
  | columns graph tasks status => exact status
  | start graph tasks created status => exact absurd (.inl created) unfinished
  | succeed graph tasks running | claim graph running | work graph running => exact absurd (.inr running) unfinished
  | pause graph open_ status => exact status
  | terminate graph open_ | expand expanded open_ => exact absurd open_ unfinished

theorem steps_append (P : RetryPolicy) (ledger : Ledger) (ops ops' : List Op) :
    steps P ledger (ops ++ ops') = steps P (steps P ledger ops) ops' :=
  List.foldl_append

theorem acquired_epoch {runId ownerId : String} {leaseDurationMs : ℤ}
    (h : acquireDagRunLease runId ownerId now leaseDurationMs ledger = .ok (some lease, ledger')) :
    ∃ run, ledger.runs.get? runId = some run ∧ lease.epoch = run.ownerEpoch + 1 ∧
      ∃ run', ledger'.runs.get? runId = some run' ∧ lease.epoch ≤ run'.ownerEpoch := by
  obtain ⟨r, hr, ⟨hn, -⟩ | ⟨-, -, hl, rfl⟩⟩ := acquireDagRunLease_ok h
  · cases hn
  · cases hl
    refine ⟨r, hr, rfl, _, by rw [Ledger.get?_put, if_pos rfl], ?_⟩
    exact le_rfl

theorem ledgerInv_acquired (P : RetryPolicy) {runId ownerId : String} {leaseDurationMs : ℤ} {r : Option DagRunLease}
    (hi : LedgerInv ledger)
    (h : acquireDagRunLease runId ownerId now leaseDurationMs ledger = .ok (r, ledger')) : LedgerInv ledger' := by
  have hstep : step P ledger (.acquireDagRunLease runId ownerId now leaseDurationMs) = ledger' :=
    step_of_exec (congrArg (Except.map Prod.snd) h)
  rw [← hstep]
  exact ledgerInv_step hi _

theorem acquired_epoch_lt {runId ownerId ownerId' : String} {now' duration duration' : ℤ}
    {lease' : DagRunLease} {ledger'' : Ledger} {ops : List Op} (hi : LedgerInv ledger)
    (h : acquireDagRunLease runId ownerId now duration ledger = .ok (some lease, ledger'))
    (h' : acquireDagRunLease runId ownerId' now' duration' (steps P ledger' ops) =
      .ok (some lease', ledger'')) : lease.epoch < lease'.epoch := by
  obtain ⟨-, -, -, haft⟩ := acquired_epoch h
  obtain ⟨r, hr, hle⟩ := steps_run (I := fun run => lease.epoch ≤ run.ownerEpoch)
    (fun _ _ _ hl _ hle => hle.trans hl.epoch_le) (ledgerInv_acquired P hi h) haft ops
  obtain ⟨r', hr', heq, -⟩ := acquired_epoch h'
  rw [hr] at hr'
  cases hr'
  omega

theorem fenced_step {runId ownerId : String} {duration : ℤ} {before after : List Op} {fence : Op}
    {stale : DagRunLease} (hi : LedgerInv ledger)
    (h : acquireDagRunLease runId ownerId now duration ledger = .ok (some lease, ledger'))
    (hf : Fencing (steps P ledger' before) runId fence) (hid : op.runId = runId)
    (hl : op.lease? = some stale) (he : stale.epoch = lease.epoch) :
    step P (steps P ledger' (before ++ fence :: after)) op = steps P ledger' (before ++ fence :: after) := by
  have hi' := ledgerInv_acquired P hi h
  obtain ⟨-, -, -, haft⟩ := acquired_epoch h
  obtain ⟨r, hr, hle⟩ := steps_run (I := fun run => lease.epoch ≤ run.ownerEpoch)
    (fun _ _ _ hl _ hle => hle.trans hl.epoch_le) hi' haft before
  have hfen := hf.stale (P := P) hr hle
  obtain ⟨r', hr', hs⟩ := steps_run (fun _ _ _ hl _ hs => hl.stale hs)
    (ledgerInv_step (ledgerInv_steps hi' before) fence) hfen after
  have hste : steps P ledger' (before ++ fence :: after) = steps P (step P (steps P ledger' before) fence) after := by
    rw [steps_append]
    rfl
  rw [hste]
  exact step_of_stale (hid ▸ hr') hl (he ▸ hs)

theorem terminal_step (hi : LedgerInv ledger) (hrun : ledger.runs.get? runId = some run)
    (hrun' : (step P ledger op).runs.get? runId = some run') (ho : ¬ run.status.Terminal) (ht : run'.status.Terminal) :
    ∃ now lease, op = .setDagRunStatus runId run'.status now (some lease) ∧ run.holds lease ∧
      now < lease.leaseExpiresAt := by
  obtain ⟨r, hr, rfl | ⟨hid, -, hm⟩⟩ := step_run P hi op hrun
  · rw [hr] at hrun'
    cases hrun'
    exact absurd ht ho
  · rw [hr] at hrun'
    cases hrun'
    have hgiv := hm.terminal ho ht
    cases op <;> try exact absurd hgiv id
    case setDagRunStatus id status now lease? =>
      obtain ⟨hs, hheld⟩ := hgiv
      obtain rfl : id = runId := hid
      cases lease? with
      | none =>
        rw [← hs, decide_eq_true ht] at hheld
        exact (assertDagRunMutationLease_terminal hheld).elim
      | some lease =>
        obtain ⟨hh, hlt⟩ := assertDagRunMutationLease_some.mp hheld
        exact ⟨now, lease, hs ▸ rfl, hh, hlt⟩

theorem terminal_steps (hi : LedgerInv ledger)
    (hrun : ledger.runs.get? runId = some run) (ht : run.status.Terminal) (ops : List Op) :
    ∃ run', (steps P ledger ops).runs.get? runId = some run' ∧ run'.status = run.status := by
  refine steps_run (I := fun run' => run'.status = run.status) ?_ hi ⟨run, hrun, rfl⟩ ops
  intro R r r' _ hm hs
  exact (hm.status_of_terminal (hs ▸ ht)).trans hs

/-- **Run leases fence stale controllers.** Whatever calls any number of controllers make, in
whatever order and with whatever clocks: epochs of acquisitions grow, one lease value passes the
check, a lease changes nothing after it was fenced, a run ends only under its current unexpired
lease, and stays ended. -/
theorem run_lease_fencing (P : RetryPolicy) (runId : String) :
    (∀ ledger, Reachable P ledger → ∀ ownerId now duration lease ledger',
      acquireDagRunLease runId ownerId now duration ledger = .ok (some lease, ledger') →
      (∀ ops ownerId' now' duration' lease' ledger'',
        acquireDagRunLease runId ownerId' now' duration' (steps P ledger' ops) =
          .ok (some lease', ledger'') → lease.epoch < lease'.epoch) ∧
      (∀ before fence after op stale, Fencing (steps P ledger' before) runId fence →
        op.runId = runId → op.lease? = some stale → stale.ownerId = lease.ownerId → stale.epoch = lease.epoch →
        step P (steps P ledger' (before ++ fence :: after)) op = steps P ledger' (before ++ fence :: after))) ∧
    (∀ run now now' lease lease', assertDagRunMutationLease run now (some lease) = .ok () →
      assertDagRunMutationLease run now' (some lease') = .ok () → lease = lease') ∧
    (∀ ledger, Reachable P ledger → ∀ run, ledger.runs.get? runId = some run →
      (¬ run.status.Terminal → ∀ op run', (step P ledger op).runs.get? runId = some run' →
        run'.status.Terminal → ∃ now lease, op = .setDagRunStatus runId run'.status now (some lease) ∧
          assertDagRunMutationLease run now (some lease) = .ok ()) ∧
      (run.status.Terminal → ∀ ops, ∃ run', (steps P ledger ops).runs.get? runId = some run' ∧
        run'.status = run.status)) := by
  refine ⟨fun ledger hr ownerId now duration lease ledger' h => ⟨?_, ?_⟩, ?_, ?_⟩
  · intro ops ownerId' now' duration' lease' ledger'' h'
    exact acquired_epoch_lt (ledgerInv_of_reachable hr) h h'
  · intro before fence after op stale hf hid hl _ he
    exact fenced_step (ledgerInv_of_reachable hr) h hf hid hl he
  · intro run now now' lease lease' h h'
    exact holds_unique (assertDagRunMutationLease_some.mp h).1
      (assertDagRunMutationLease_some.mp h').1
  · intro ledger hr run hrun
    have hi := ledgerInv_of_reachable hr
    refine ⟨fun ho op run' hrun' ht => ?_, fun ht ops => terminal_steps hi hrun ht ops⟩
    obtain ⟨now, lease, hop, hh, hlt⟩ := terminal_step hi hrun hrun' ho ht
    exact ⟨now, lease, hop, assertDagRunMutationLease_some.mpr ⟨hh, hlt⟩⟩

end EasyPi.Subagent
