/-
# The client along a run

The invariant holds in every state a run reaches, and a request that is pending is settled
with the first thing that happens to it, unless the client opens again after it was closed:
the last step of `connect` sets the state whatever it is by then.
-/
import EasyPi.Mcp.ClientInvariant

namespace EasyPi.Mcp

open List

variable {config : ClientConfig} {s : McpClient}

/-- `connect` does not end well after the client was closed. -/
def ClientEvent.Sound (s : McpClient) : ClientEvent → Prop
  | .notified ok => ok = true → s.phase = .notifying → s.state ≠ .closed
  | _ => True

instance (s : McpClient) : ∀ event : ClientEvent, Decidable (event.Sound s)
  | .notified ok => inferInstanceAs (Decidable (ok = true → s.phase = .notifying → s.state ≠ .closed))
  | .connect | .started _ | .initialized | .request .. | .notify _ | .close | .abort .. | .timeout _
  | .sendFailed .. | .message _ | .handled _ | .transportClose => .isTrue trivial

namespace McpClient

/-! ### Steps -/

section
variable (h : s.ClientInv)
include h

theorem ClientInv.connect : s.connect.ClientInv := by
  unfold McpClient.connect
  split
  · rename_i hidle
    refine ⟨⟨h.core.next_pos, h.core.nodup, h.core.unsettled, h.core.once, h.core.settled_lt,
      h.core.progress, h.core.tokens, h.core.requests, h.core.cancellable, h.core.cancelled,
      h.core.cancelledOnce⟩, by simp, ?_, by simp, by simp, fun hp => ?_⟩
    · simpa [hidle] using h.closeRuns
    · rw [h.promise hp] at hidle
      cases hidle
  · exact h

theorem ClientInv.started (ok : Bool) : (s.started config ok).ClientInv := by
  unfold McpClient.started
  split
  · exact h
  · split
    · exact h.failConnect
    · exact (h.requestInternal "initialize" {} true).phase _

theorem ClientInv.initialized : s.initialized.ClientInv := by
  unfold McpClient.initialized
  split
  · split
    · exact h
    · split
      · exact (h.send (by simp) (by simp)).phase .notifying
      · exact h.failConnect
  · exact h

theorem ClientInv.notified {ok : Bool} (hs : (ClientEvent.notified ok).Sound s) : (s.notified ok).ClientInv := by
  unfold McpClient.notified
  split
  · exact h
  · rename_i hph
    split
    · rename_i hok
      subst hok
      have hopen : s.state ≠ .closed := hs rfl (by simpa using hph)
      refine ⟨h.core.relabel _ _ _ _ _, by simp, ?_, h.listening, h.pendingListening, fun hp => absurd (h.promise hp) hopen⟩
      simpa [hopen] using h.closeRuns
    · exact h.failConnect

theorem ClientInv.handleResponse (message : JsonValue) : (s.handleResponse message).ClientInv := by
  unfold McpClient.handleResponse
  split
  · exact h
  · rename_i e he
    obtain ⟨hmem, -⟩ := requestOf_eq_some he
    split <;> exact h.settle hmem _

theorem ClientInv.handleMessage (message : JsonValue) : (s.handleMessage config message).ClientInv := by
  unfold McpClient.handleMessage
  split
  · exact h
  · split
    · exact h.handleResponse message
    · split
      · simp only
        split
        · exact h.of_same (h.core.relabel _ _ _ _ _) ⟨rfl, rfl, rfl, rfl, rfl, fun hnil => hnil⟩
        · exact h.send (by simp) (by simp)
      · exact h

theorem ClientInv.step {event : ClientEvent} (hs : event.Sound s) : (s.step config event).ClientInv := by
  cases event with
  | connect => exact h.connect
  | started ok => exact h.started ok
  | initialized => exact h.initialized
  | notified ok => exact h.notified hs
  | request method options => exact h.requestInternal method options false
  | notify method =>
    simp only [McpClient.step, McpClient.notify]
    split
    · exact h.send (by simp) (by simp)
    · exact h
  | close => exact h.close
  | abort id reason =>
    simp only [McpClient.step]
    split
    · rename_i e he
      split
      · refine h.cancelPending id reason fun hc => ⟨trivial, fun e' he' => ?_⟩
        rw [he] at he'
        cases he'
        exact hc
      · exact h
    · exact h
  | timeout id =>
    simp only [McpClient.step]
    split
    · rename_i e he
      split
      · refine h.cancelPending id _ fun hc => ⟨trivial, fun e' he' => ?_⟩
        rw [he] at he'
        cases he'
        exact hc
      · exact h
    · exact h
  | sendFailed id reason => exact h.cancelPending id "" (by simp)
  | message message => exact h.handleMessage message
  | handled id =>
    have hsend := @ClientInv.send s h (.reply id) (by simp) (by simp)
    exact hsend.of_same (hsend.core.relabel _ _ _ _ _) ⟨rfl, rfl, rfl, rfl, rfl, fun hnil => hnil⟩
  | transportClose =>
    simp only [McpClient.step, McpClient.handleTransportClose]
    split
    · exact h.markClosed
    · exact h

end

/-! ### Promises -/

def Keeps (s s' : McpClient) : Prop := s.settled <+: s'.settled

theorem keeps_settle (e : PendingRequest) (how : Settlement) : s.Keeps (s.settle e how) := prefix_append _ _

theorem settled_foldl_settle (how : Settlement) (es : List PendingRequest) :
    (es.foldl (fun s e => s.settle e how) s).settled = s.settled ++ es.map fun e => (e.id, how) := by
  induction es generalizing s with
  | nil => simp
  | cons e es ih =>
    rw [foldl_cons, ih]
    simp [McpClient.settle]

theorem settled_markClosed : s.markClosed.settled = s.settled ++ s.pending.map fun e => (e.id, .closed) :=
  @settled_foldl_settle { s with state := .closed } .closed s.pending

theorem settled_close : s.close = s ∨ s.close.state = .closed ∧
    s.close.settled = s.settled ++ s.pending.map fun e => (e.id, .closed) := by
  unfold McpClient.close
  split
  · exact .inl rfl
  · refine .inr ⟨?_, settled_markClosed⟩
    exact (@foldl_settle_same { s with
      state := .closed, transport := false, listening := false, closePromise := true } .closed
      s.pending).state

theorem keeps_close : s.Keeps s.close := by
  obtain heq | ⟨-, heq⟩ := @settled_close s
  · rw [heq]
    exact prefix_rfl
  · rw [Keeps, heq]
    exact prefix_append _ _

theorem keeps_cancelPending (id : ℕ) (how : Settlement) (notifyServer : Bool)
    (reason : String) : s.Keeps (s.cancelPending id how notifyServer reason) := by
  unfold McpClient.cancelPending
  split
  · exact prefix_rfl
  · simp only
    split <;> exact keeps_settle _ how

theorem keeps_requestInternal (method : String) (options : RequestOptions) (allow : Bool) :
    s.Keeps (s.requestInternal config method options allow) := by
  unfold McpClient.requestInternal
  split
  · exact prefix_rfl
  · split <;> exact prefix_rfl

theorem keeps_step (event : ClientEvent) : s.Keeps (s.step config event) := by
  cases event with
  | connect =>
    simp only [McpClient.step, McpClient.connect]
    split <;> exact prefix_rfl
  | started ok =>
    simp only [McpClient.step, McpClient.started]
    split
    · exact prefix_rfl
    · split
      · exact keeps_close
      · exact keeps_requestInternal _ _ _
  | initialized =>
    simp only [McpClient.step, McpClient.initialized]
    split
    · split
      · exact prefix_rfl
      · split
        · exact prefix_rfl
        · exact keeps_close
    · exact prefix_rfl
  | notified ok =>
    simp only [McpClient.step, McpClient.notified]
    split
    · exact prefix_rfl
    · split
      · exact prefix_rfl
      · exact keeps_close
  | request method options => exact keeps_requestInternal _ _ _
  | notify method =>
    simp only [McpClient.step, McpClient.notify]
    split <;> exact prefix_rfl
  | close => exact keeps_close
  | abort id reason | timeout id =>
    simp only [McpClient.step]
    split
    · split
      · exact keeps_cancelPending _ _ _ _
      · exact prefix_rfl
    · exact prefix_rfl
  | sendFailed id reason => exact keeps_cancelPending _ _ _ _
  | message message =>
    simp only [McpClient.step, McpClient.handleMessage]
    split
    · exact prefix_rfl
    · split
      · unfold McpClient.handleResponse
        split
        · exact prefix_rfl
        · split <;> exact keeps_settle _ _
      · split
        · split <;> exact prefix_rfl
        · exact prefix_rfl
  | handled id => exact prefix_rfl
  | transportClose =>
    simp only [McpClient.step, McpClient.handleTransportClose]
    split
    · rw [Keeps, settled_markClosed]
      exact prefix_append _ _
    · exact prefix_rfl

theorem lookup_of_keeps {s' : McpClient} (h : s.Keeps s') {id : ℕ} {how : Settlement}
    (hl : s.settled.lookup id = some how) : s'.settled.lookup id = some how := by
  obtain ⟨more, hmore⟩ := h
  rw [← hmore, lookup_append, hl, Option.some_or]

/-! ### What settles a request -/

/-- What a response settles its request with. -/
def settlementOf (message : JsonValue) : Settlement :=
  match message.field? "error" with
  | some error => .error error
  | none => .result ((message.field? "result").getD .null)

/-- The connection fails, and `connect` closes the client: the transport does not start or is gone, the answer to
`initialize` is not accepted, or the notification cannot be sent. -/
def connectFails (s : McpClient) : ClientEvent → Bool
  | .started ok => s.phase = .starting && (!ok || !s.requireTransport true)
  | .initialized =>
    match s.phase with
    | .initializing id => (s.settled.lookup id).any fun settlement => !(accepted settlement && s.requireTransport true)
    | _ => false
  | .notified ok => s.phase = .notifying && !ok
  | _ => false

/-- What an event settles a pending request with: a response bears its id, its signal is aborted,
its timer fires, its message cannot be sent, or the client or its transport closes. -/
def outcome (s : McpClient) (e : PendingRequest) : ClientEvent → Option Settlement
  | .message message =>
    if isJsonRpcResponse message && message.field? "id" = some (.num e.id) then
      some (settlementOf message)
    else none
  | .abort id _ => if id = e.id && e.signal then some .aborted else none
  | .timeout id =>
    if id = e.id then (e.timeoutMs.filter (0 < ·)).map .timedOut else none
  | .sendFailed id reason => if id = e.id then some (.sendFailed reason) else none
  | .close | .transportClose => some .closed
  | event => if s.connectFails event then some .closed else none

/-- What the first such event of a run settles it with. -/
def firstOutcome (config : ClientConfig) : McpClient → PendingRequest → List ClientEvent → Option Settlement
  | _, _, [] => none
  | s, e, event :: events =>
    (outcome s e event).or (firstOutcome config (s.step config event) e events)

section Outcome

variable {e : PendingRequest}

theorem Core.lookup_pending (h : s.Core) (he : e ∈ s.pending) : s.settled.lookup e.id = none := by
  obtain ⟨-, hnot⟩ := (h.unsettled e.id).mp (mem_map_of_mem he)
  refine lookup_eq_none_iff.mpr fun p hp => ?_
  have : e.id ≠ p.1 := fun heq => hnot (heq ▸ mem_map_of_mem hp)
  simpa using this

theorem Core.lookup_settle (h : s.Core) (he : e ∈ s.pending) (how : Settlement) :
    (s.settle e how).settled.lookup e.id = some how := by
  simp [McpClient.settle, lookup_append, h.lookup_pending he]

theorem mem_settle (he : e ∈ s.pending) {other : PendingRequest} (hne : other.id ≠ e.id)
    (how : Settlement) : e ∈ (s.settle other how).pending := by
  simp [McpClient.settle, he, Ne.symm hne]

theorem Core.lookup_closed (h : s.Core) (he : e ∈ s.pending) :
    (s.settled ++ s.pending.map fun e => (e.id, Settlement.closed)).lookup e.id = some .closed := by
  rw [lookup_append, h.lookup_pending he, Option.none_or]
  have hcon : ∀ es : List PendingRequest, e ∈ es →
      (es.map fun e => (e.id, Settlement.closed)).lookup e.id = some .closed := by
    intro es hmem
    induction es with
    | nil => cases hmem
    | cons e' es ih =>
      rw [map_cons, lookup_cons]
      by_cases hid : e.id = e'.id
      · simp [hid]
      · have hmem : e ∈ es := by
          obtain rfl | hmem := mem_cons.mp hmem
          · exact absurd rfl hid
          · exact hmem
        have hne : (e.id == e'.id) = false := by simpa using hid
        rw [hne]
        exact ih hmem
  exact hcon s.pending he

theorem ClientInv.open_of_pending (h : s.ClientInv) (he : e ∈ s.pending) : s.state ≠ .closed := by
  intro hc
  rw [h.closed hc] at he
  cases he

/-- **Closing** the client settles what is pending. -/
theorem ClientInv.lookup_close (h : s.ClientInv) (he : e ∈ s.pending) : s.close.settled.lookup e.id = some .closed := by
  have hopen : ¬ s.closePromise = true := fun hp => h.open_of_pending he (h.promise hp)
  rw [McpClient.close, if_neg hopen, settled_markClosed]
  exact h.core.lookup_closed he

theorem ClientInv.close_state (h : s.ClientInv) : s.close.state = .closed := by
  by_cases hp : s.closePromise = true
  · rw [McpClient.close, if_pos hp]
    exact h.promise hp
  · obtain heq | ⟨hst, -⟩ := @settled_close s
    · rw [McpClient.close, if_neg hp]
      exact (@foldl_settle_same { s with
        state := .closed, transport := false, listening := false, closePromise := true } .closed s.pending).state
    · exact hst

theorem mem_requestInternal (he : e ∈ s.pending) (method : String) (options : RequestOptions) (allow : Bool) :
    e ∈ (s.requestInternal config method options allow).pending := by
  unfold McpClient.requestInternal
  split
  · exact he
  · split
    · exact he
    · exact mem_append_left _ he

theorem Core.pendingOf_self (h : s.Core) (he : e ∈ s.pending) : s.pendingOf e.id = some e := by
  cases hf : s.pendingOf e.id with
  | none =>
    have := List.find?_eq_none.mp hf e he
    simp at this
  | some e' =>
    obtain ⟨hmem, hid⟩ := pendingOf_eq_some hf
    rw [h.eq_of_id hmem he hid]

theorem Core.requestOf_self (h : s.Core) (he : e ∈ s.pending) : s.requestOf (some (.num e.id)) = some e := by
  cases hf : s.requestOf (some (.num e.id)) with
  | none =>
    have := List.find?_eq_none.mp hf e he
    simp at this
  | some e' =>
    obtain ⟨hmem, hid⟩ := requestOf_eq_some hf
    have hid : e'.id = e.id := by simpa [eq_comm] using hid
    rw [h.eq_of_id hmem he hid]

theorem Core.lookup_cancelPending (h : s.Core) (he : e ∈ s.pending) (how : Settlement)
    (notifyServer : Bool) (reason : String) :
    (s.cancelPending e.id how notifyServer reason).settled.lookup e.id = some how := by
  have hl := h.lookup_settle he how
  simp only [McpClient.cancelPending, h.pendingOf_self he]
  split <;> exact hl

theorem mem_cancelPending (he : e ∈ s.pending) {id : ℕ} (hne : id ≠ e.id) (how : Settlement)
    (notifyServer : Bool) (reason : String) : e ∈ (s.cancelPending id how notifyServer reason).pending := by
  unfold McpClient.cancelPending
  split
  · exact he
  · rename_i other hoth
    obtain ⟨-, rfl⟩ := pendingOf_eq_some hoth
    simp only
    split <;> exact mem_settle he hne how

/-- **One event** settles a pending request with its outcome, or leaves it pending. -/
theorem ClientInv.settles_or_keeps (h : s.ClientInv) (he : e ∈ s.pending) (event : ClientEvent) :
    match outcome s e event with
    | some how => (s.step config event).settled.lookup e.id = some how
    | none => e ∈ (s.step config event).pending := by
  have hfail : s.failConnect.settled.lookup e.id = some .closed := h.lookup_close he
  cases event with
  | connect =>
    change e ∈ s.connect.pending
    unfold McpClient.connect
    split
    · exact he
    · exact he
  | started ok =>
    simp only [outcome, connectFails, McpClient.step, McpClient.started]
    by_cases hph : s.phase = .starting
    · by_cases hbad : (!ok || !s.requireTransport true) = true
      · simpa [hph, hbad] using hfail
      · simpa [hph, hbad] using mem_requestInternal he _ _ _
    · simpa [hph] using he
  | initialized =>
    have hcases : (s.connectFails .initialized = true ∧ s.initialized = s.failConnect) ∨
        (s.connectFails .initialized = false ∧ s.initialized.pending = s.pending) := by
      unfold connectFails McpClient.initialized
      cases s.phase with
      | initializing id =>
        dsimp only
        cases s.settled.lookup id with
        | none => exact .inr ⟨rfl, rfl⟩
        | some how =>
          by_cases hok : (accepted how && s.requireTransport true) = true
          · exact .inr ⟨by rw [Option.any_some, hok]; rfl, by dsimp only; rw [if_pos hok]⟩
          · exact .inl ⟨by rw [Option.any_some, Bool.eq_false_iff.mpr hok]; rfl, if_neg hok⟩
      | _ => exact .inr ⟨rfl, rfl⟩
    obtain ⟨hbad, heq⟩ | ⟨hgood, heq⟩ := hcases
    · simpa [outcome, McpClient.step, hbad, heq] using hfail
    · simpa [outcome, McpClient.step, hgood, heq] using he
  | notified ok =>
    simp only [outcome, connectFails, McpClient.step, McpClient.notified]
    by_cases hph : s.phase = .notifying
    · cases ok with
      | true => simpa [hph] using he
      | false => simpa [hph] using hfail
    · simpa [hph] using he
  | request method options => exact mem_requestInternal he _ _ _
  | notify method =>
    change e ∈ (s.notify method).pending
    unfold McpClient.notify
    split
    · exact he
    · exact he
  | close => exact h.lookup_close he
  | handled id => exact he
  | transportClose =>
    change s.handleTransportClose.settled.lookup e.id = some .closed
    rw [McpClient.handleTransportClose, if_pos (h.pendingListening (ne_nil_of_mem he)), settled_markClosed]
    exact h.core.lookup_closed he
  | abort id reason =>
    by_cases hid : id = e.id
    · subst hid
      simp only [outcome, McpClient.step, h.core.pendingOf_self he, decide_true, Bool.true_and]
      by_cases hsig : e.signal = true
      · simpa [hsig] using h.core.lookup_cancelPending he _ _ _
      · simpa [hsig] using he
    · simp only [outcome, McpClient.step, hid, decide_false, Bool.false_and, Bool.false_eq_true, if_false]
      split
      · split
        · exact mem_cancelPending he hid _ _ _
        · exact he
      · exact he
  | timeout id =>
    by_cases hid : id = e.id
    · subst hid
      simp only [outcome, McpClient.step, h.core.pendingOf_self he, if_true]
      cases htimer : e.timeoutMs.filter (0 < ·) with
      | none => exact he
      | some timeoutMs => exact h.core.lookup_cancelPending he _ _ _
    · simp only [outcome, McpClient.step, hid, if_false]
      split
      · split
        · exact mem_cancelPending he hid _ _ _
        · exact he
      · exact he
  | sendFailed id reason =>
    by_cases hid : id = e.id
    · subst hid
      simpa [outcome, McpClient.step] using
        h.core.lookup_cancelPending he (.sendFailed reason) false ""
    · simpa [outcome, McpClient.step, hid] using
        mem_cancelPending he hid (.sendFailed reason) false ""
  | message message =>
    have hlisten := h.pendingListening (ne_nil_of_mem he)
    simp only [outcome, McpClient.step, McpClient.handleMessage, hlisten, Bool.not_true, Bool.false_eq_true, if_false]
    by_cases hres : isJsonRpcResponse message = true
    · simp only [hres, Bool.true_and, if_true, decide_eq_true_eq]
      by_cases hid : message.field? "id" = some (.num e.id)
      · simp only [hid, if_true, McpClient.handleResponse, h.core.requestOf_self he, settlementOf]
        cases message.field? "error" <;> exact h.core.lookup_settle he _
      · simp only [hid, if_false]
        unfold McpClient.handleResponse
        split
        · exact he
        · rename_i other hoth
          obtain ⟨-, hid'⟩ := requestOf_eq_some hoth
          have hne : other.id ≠ e.id := fun heq => hid (heq ▸ hid')
          split <;> exact mem_settle he hne _
    · simp only [hres, Bool.false_and, Bool.false_eq_true, if_false]
      split
      · split <;> exact he
      · exact he

/-- **A pending request is settled with the first thing that happens to it.** -/
theorem ClientInv.settled_with_first (h : s.ClientInv) (he : e ∈ s.pending) {events : List ClientEvent}
    (hrun : Along (McpClient.step config) (fun s event => event.Sound s) s events) :
    (events.foldl (McpClient.step config) s).settled.lookup e.id = firstOutcome config s e events := by
  induction events generalizing s with
  | nil => exact h.core.lookup_pending he
  | cons event events ih =>
    have hstep := @ClientInv.settles_or_keeps config s e h he event
    rw [foldl_cons, firstOutcome]
    cases ho : outcome s e event with
    | some how =>
      rw [ho] at hstep
      have hkept : ∀ (events : List ClientEvent) (s' : McpClient), s'.settled.lookup e.id = some how →
          (events.foldl (McpClient.step config) s').settled.lookup e.id = some how := by
        intro events
        induction events with
        | nil => exact fun _ hl => hl
        | cons event events ih => exact fun s' hl => ih _ (lookup_of_keeps (keeps_step event) hl)
      exact hkept events _ hstep
    | none =>
      rw [ho] at hstep
      exact ih (h.step hrun.1) hstep hrun.2

end Outcome

/-! ### The closed state -/

/-- The client stays closed, and `connect` does not resolve. -/
def StaysClosed (s s' : McpClient) : Prop := s'.state = .closed ∧ (s'.phase = .resolved → s.phase = .resolved)

section
variable (hc : s.state = .closed)
include hc

theorem stays_refl : StaysClosed s s := ⟨hc, id⟩

theorem close_closed : s.close.state = .closed ∧ s.close.phase = s.phase := by
  have hph : ∀ (s' : McpClient), s'.markClosed.phase = s'.phase := by
    intro s'
    have hfold : ∀ (es : List PendingRequest) (s : McpClient),
        (es.foldl (fun s e => s.settle e .closed) s).phase = s.phase := by
      intro es
      induction es with
      | nil => exact fun _ => rfl
      | cons e es ih => exact fun s => ih _
    exact hfold s'.pending { s' with state := .closed }
  obtain heq | ⟨hst, -⟩ := @settled_close s
  · rw [heq]
    exact ⟨hc, rfl⟩
  · refine ⟨hst, ?_⟩
    unfold McpClient.close
    split
    · rfl
    · exact hph _

theorem failConnect_stays : StaysClosed s s.failConnect := ⟨(close_closed hc).1, by simp [McpClient.failConnect]⟩

theorem requireTransport_closed (allow : Bool) : s.requireTransport allow = false := by
  simp [McpClient.requireTransport, hc]

end

theorem cancelPending_nil (hnil : s.pending = []) (id : ℕ) (how : Settlement)
    (notifyServer : Bool) (reason : String) : s.cancelPending id how notifyServer reason = s := by
  simp [McpClient.cancelPending, McpClient.pendingOf, hnil]

/-- **A closed client stays closed.** -/
theorem ClientInv.stays_closed (h : s.ClientInv) (hc : s.state = .closed) {event : ClientEvent}
    (hs : event.Sound s) : StaysClosed s (s.step config event) := by
  have hnil := h.closed hc
  cases event with
  | connect => simpa [McpClient.step, McpClient.connect, hc] using stays_refl hc
  | started ok =>
    simp only [McpClient.step, McpClient.started, requireTransport_closed hc, Bool.not_false, Bool.or_true, if_true]
    split
    · exact stays_refl hc
    · exact failConnect_stays hc
  | initialized =>
    simp only [McpClient.step, McpClient.initialized, requireTransport_closed hc, Bool.and_false,
      Bool.false_eq_true, if_false]
    split
    · split
      · exact stays_refl hc
      · exact failConnect_stays hc
    · exact stays_refl hc
  | notified ok =>
    simp only [McpClient.step, McpClient.notified]
    split
    · exact stays_refl hc
    · rename_i hph
      split
      · rename_i hok
        exact absurd hc (hs hok (by simpa using hph))
      · exact failConnect_stays hc
  | request method options =>
    simpa [McpClient.step, McpClient.requestInternal, requireTransport_closed hc] using stays_refl hc
  | notify method =>
    simpa [McpClient.step, McpClient.notify, requireTransport_closed hc] using stays_refl hc
  | close =>
    obtain ⟨hst, hph⟩ := close_closed hc
    exact ⟨hst, fun hr => hph ▸ hr⟩
  | abort id reason | timeout id =>
    simpa [McpClient.step, McpClient.pendingOf, hnil] using stays_refl hc
  | sendFailed id reason =>
    simpa [McpClient.step, cancelPending_nil hnil] using stays_refl hc
  | message message =>
    simp only [McpClient.step, McpClient.handleMessage]
    split
    · exact stays_refl hc
    · split
      · simpa [McpClient.handleResponse, McpClient.requestOf, hnil] using stays_refl hc
      · split
        · split <;> exact stays_refl hc
        · exact stays_refl hc
  | handled id => exact stays_refl hc
  | transportClose =>
    simp only [McpClient.step, McpClient.handleTransportClose]
    split
    · refine ⟨(markClosed_spec h.core h.closeRuns h.listening).2, fun hr => ?_⟩
      simpa [McpClient.markClosed, McpClient.rejectPending, hnil] using hr
    · exact stays_refl hc

theorem ClientInv.stays_closed_run (h : s.ClientInv) (hc : s.state = .closed) {events : List ClientEvent}
    (hrun : Along (McpClient.step config) (fun s event => event.Sound s) s events) :
    StaysClosed s (events.foldl (McpClient.step config) s) := by
  induction events generalizing s with
  | nil => exact stays_refl hc
  | cons event events ih =>
    obtain ⟨hst, hph⟩ := @ClientInv.stays_closed config s h hc event hrun.1
    obtain ⟨hst', hph'⟩ := ih (h.step hrun.1) hst hrun.2
    exact ⟨hst', fun hr => hph (hph' hr)⟩

end McpClient

/-! ### Runs -/

/-- **The lifecycle of the client**, in every run in which `connect` does not end well after the
client was closed: a closed client stays closed and `connect` does not resolve any more; a promise
is settled once, with the first thing that happens to its request; what is pending is what is not
settled, with its progress tokens, and nothing when the client is closed; only a request that was
given up is cancelled at the server, once, and never `initialize`; and the close listeners have run
once when the client is closed, as it is once it or its transport closes. -/
theorem client_lifecycle (config : ClientConfig) (events : List ClientEvent)
    (h : Along (McpClient.step config) (fun s event => event.Sound s) {} events) :
    let s := events.foldl (McpClient.step config) {}
    (s.state = .closed → ∀ more, Along (McpClient.step config) (fun s event => event.Sound s) s more →
        McpClient.StaysClosed s (more.foldl (McpClient.step config) s)) ∧
    ((s.settled.map Prod.fst).Nodup ∧ ∀ e ∈ s.pending, ∀ more,
      Along (McpClient.step config) (fun s event => event.Sound s) s more →
        (more.foldl (McpClient.step config) s).settled.lookup e.id = McpClient.firstOutcome config s e more) ∧
    ((∀ id, id ∈ s.pending.map (·.id) ↔ (0 < id ∧ id < s.nextRequestId) ∧ id ∉ s.settled.map Prod.fst) ∧
      s.progressRequests = (s.pending.filterMap fun e => e.progressToken.map fun token => (token, e.id)) ∧
      (s.state = .closed → s.pending = [] ∧ s.progressRequests = [])) ∧ ((∀ id reason, .cancelled id reason ∈ s.sent →
        .request id "initialize" ∉ s.sent ∧ ∃ given, (id, given) ∈ s.settled ∧ given.GivesUp) ∧
      (s.sent.filterMap Outgoing.cancelledId?).Nodup) ∧
    (s.closeRuns = if s.state = .closed then 1 else 0) ∧ (s.step config .close).state = .closed ∧
      (s.transport = true → (s.step config .transportClose).state = .closed) := by
  have hinv : (events.foldl (McpClient.step config) {}).ClientInv :=
    Along.invariant (fun s event hs heve => hs.step heve) McpClient.ClientInv.init h
  refine ⟨fun hc more hmore => hinv.stays_closed_run hc hmore,
    ⟨hinv.core.once, fun e he more hmore => hinv.settled_with_first he hmore⟩,
    ⟨hinv.core.unsettled, hinv.core.progress, fun hc => ⟨hinv.closed hc, ?_⟩⟩,
    ⟨hinv.core.cancelled, hinv.core.cancelledOnce⟩, hinv.closeRuns, hinv.close_state, fun htransport => ?_⟩
  · rw [hinv.core.progress, hinv.closed hc]
    rfl
  · change (McpClient.handleTransportClose _).state = .closed
    rw [McpClient.handleTransportClose, if_pos (hinv.listening htransport)]
    exact (McpClient.markClosed_spec hinv.core hinv.closeRuns hinv.listening).2

namespace Handshake

/-- What a server answers to `initialize`. -/
def answer : JsonValue :=
  .obj [("jsonrpc", .str "2.0"), ("id", .num 1), ("result", .obj [
    ("protocolVersion", .str "2025-06-18"), ("capabilities", .obj []),
    ("serverInfo", .obj [("name", .str "s"), ("version", .str "1")])])]

/-- A client connects up to the notification that ends the handshake. -/
def handshake : List ClientEvent := [.connect, .started true, .message answer, .initialized]

/-- It is connected, asks for something it gives up, and the transport closes. -/
def session : List ClientEvent :=
  handshake ++ [.notified true, .request "tools/call" ⟨some false, none, true⟩, .abort 2 "stop",
    .request "ping" {}, .transportClose]

theorem session_closed :
    let s := session.foldl (McpClient.step {}) {}
    s.state = .closed ∧ s.pending = [] ∧ s.progressRequests = [] ∧ s.closeRuns = 1 ∧
      s.settled.map Prod.fst = [1, 2, 3] ∧ .cancelled 2 (some "stop") ∈ s.sent := by
  have hrun : Along (McpClient.step {}) (fun s event => event.Sound s) {} session := by
    decide +kernel
  obtain ⟨-, -, ⟨-, -, hcl⟩, -, hruns, -⟩ := client_lifecycle {} session hrun
  have hst : (session.foldl (McpClient.step {}) {}).state = .closed := by decide +kernel
  obtain ⟨hpend, hpro⟩ := hcl hst
  rw [if_pos hst] at hruns
  exact ⟨hst, hpend, hpro, hruns, by decide +kernel, by decide +kernel⟩

/-- The transport closes during the handshake, the notification is sent, and the client is closed. -/
def reopened : List ClientEvent := handshake ++ [.transportClose, .notified true, .close]

/-- **A client that is closed during the handshake is connected again** when the notification that
ends it has been sent, and the next close runs the listeners a second time. -/
theorem reopened_after_close : ((reopened.take 5).foldl (McpClient.step {}) {}).state = .closed ∧
      ((reopened.take 6).foldl (McpClient.step {}) {}).state = .connected ∧
      ((reopened.take 6).foldl (McpClient.step {}) {}).phase = .resolved ∧
      (reopened.foldl (McpClient.step {}) {}).closeRuns = 2 := by
  decide +kernel

end Handshake

end EasyPi.Mcp
