/-
# What the client keeps

The requests that are pending are those whose promise has not been settled, each promise
is settled once, and the client asks the server to cancel a request only when it has just
given it up. Closing settles what is pending and runs the close listeners once.
-/
import EasyPi.Mcp.Client

namespace EasyPi.Mcp

open List

variable {config : ClientConfig} {s : McpClient}

def Settlement.GivesUp : Settlement → Prop
  | .aborted | .timedOut _ => True
  | _ => False

/-- The request a message asks the server to cancel. -/
def Outgoing.cancelledId? : Outgoing → Option ℕ
  | .cancelled id _ => some id
  | _ => none

attribute [local simp] Outgoing.cancelledId?

namespace McpClient

/-- Requests, promises, tokens and messages fit together. -/
structure Core (s : McpClient) : Prop where
  next_pos : 0 < s.nextRequestId
  nodup : (s.pending.map (·.id)).Nodup
  unsettled : ∀ id, id ∈ s.pending.map (·.id) ↔ (0 < id ∧ id < s.nextRequestId) ∧ id ∉ s.settled.map Prod.fst
  once : (s.settled.map Prod.fst).Nodup
  settled_lt : ∀ id ∈ s.settled.map Prod.fst, id < s.nextRequestId
  progress : s.progressRequests = s.pending.filterMap fun e => e.progressToken.map fun token => (token, e.id)
  tokens : ∀ e ∈ s.pending, ∀ token ∈ e.progressToken, token = e.id
  requests : ∀ id method, .request id method ∈ s.sent → id < s.nextRequestId
  cancellable : ∀ e ∈ s.pending, .request e.id "initialize" ∈ s.sent → e.cancellable = false
  cancelled : ∀ id reason, .cancelled id reason ∈ s.sent →
    .request id "initialize" ∉ s.sent ∧ ∃ given, (id, given) ∈ s.settled ∧ given.GivesUp
  cancelledOnce : (s.sent.filterMap Outgoing.cancelledId?).Nodup

/-- The client is sound, closing has been done once if it is closed, and while there are requests
their responses are heard. -/
structure ClientInv (s : McpClient) : Prop where
  core : s.Core
  closed : s.state = .closed → s.pending = []
  closeRuns : s.closeRuns = if s.state = .closed then 1 else 0
  listening : s.transport = true → s.listening = true
  pendingListening : s.pending ≠ [] → s.listening = true
  promise : s.closePromise = true → s.state = .closed

theorem Core.init : Core {} := by
  constructor <;> simp
  omega

theorem ClientInv.init : ClientInv {} := ⟨Core.init, by simp, by simp, by simp, by simp, by simp⟩

theorem Core.relabel (h : s.Core) (state : ClientState) (closePromise : Bool)
    (incoming : List JsonValue) (phase : ConnectPhase) (closeRuns : ℕ) :
    Core { s with state, closePromise, incoming, phase, closeRuns } :=
  ⟨h.next_pos, h.nodup, h.unsettled, h.once, h.settled_lt, h.progress, h.tokens, h.requests, h.cancellable,
    h.cancelled, h.cancelledOnce⟩

/-! ### Settling -/

variable {e : PendingRequest} {how : Settlement}

theorem pendingOf_eq_some {id : ℕ} (h : s.pendingOf id = some e) : e ∈ s.pending ∧ e.id = id :=
  ⟨mem_of_find?_eq_some h, by simpa using List.find?_some h⟩

theorem requestOf_eq_some {id : Option JsonValue} (h : s.requestOf id = some e) : e ∈ s.pending ∧ id = some (.num e.id) :=
  ⟨mem_of_find?_eq_some h, by simpa using List.find?_some h⟩

theorem Core.eq_of_id (h : s.Core) {e e' : PendingRequest} (he : e ∈ s.pending)
    (he' : e' ∈ s.pending) (hid : e.id = e'.id) : e = e' :=
  inj_on_of_nodup_map h.nodup he he' hid

theorem Core.progress_settle (h : s.Core) (he : e ∈ s.pending)
    (how : Settlement) : (s.settle e how).progressRequests = (s.settle e how).pending.filterMap
        fun e => e.progressToken.map fun token => (token, e.id) := by
  simp only [McpClient.settle, filterMap_filter, h.progress]
  cases htoke : e.progressToken with
  | none =>
    refine filterMap_congr fun e' he' => ?_
    by_cases hid : e'.id = e.id
    · rw [h.eq_of_id he' he hid, htoke]
      simp
    · simp [hid]
  | some token =>
    simp only [filter_filterMap]
    refine filterMap_congr fun e' he' => ?_
    have htok := h.tokens e he token htoke
    cases htoke' : e'.progressToken with
    | none => simp
    | some token' =>
      have htok' := h.tokens e' he' token' htoke'
      by_cases hid : e'.id = e.id <;> simp [Option.filter, htok, htok', hid]

theorem Core.settle (h : s.Core) (he : e ∈ s.pending) (how : Settlement) : (s.settle e how).Core := by
  have hmem : e.id ∈ s.pending.map (·.id) := mem_map_of_mem he
  obtain ⟨hid, hnot⟩ := (h.unsettled e.id).mp hmem
  have hids : (s.settle e how).pending.map (·.id) = (s.pending.map (·.id)).filter (· ≠ e.id) := by
    simp [McpClient.settle, filter_map, Function.comp_def]
  have hsub : ∀ e' ∈ (s.settle e how).pending, e' ∈ s.pending := fun e' he' =>
    (mem_filter.mp he').1
  refine ⟨h.next_pos, ?_, ?_, ?_, ?_, ?_, fun e' he' => h.tokens e' (hsub e' he'), h.requests,
    fun e' he' => h.cancellable e' (hsub e' he'), ?_, h.cancelledOnce⟩
  · rw [hids]
    exact h.nodup.filter _
  · intro id
    rw [hids, mem_filter, h.unsettled id]
    simp only [McpClient.settle, map_append, map_singleton, mem_append,
      mem_singleton, not_or, decide_eq_true_eq, and_assoc]
  · simp only [McpClient.settle, map_append, map_singleton]
    refine nodup_append.mpr ⟨h.once, nodup_singleton _, ?_⟩
    intro a ha b hb
    obtain rfl := mem_singleton.mp hb
    rintro rfl
    exact hnot ha
  · intro id hmem
    simp only [McpClient.settle, map_append, map_singleton, mem_append, mem_singleton] at hmem
    obtain hmem | rfl := hmem
    · exact h.settled_lt id hmem
    · exact hid.2
  · exact h.progress_settle he how
  · intro id reason hc
    obtain ⟨hinit, given, hg, hup⟩ := h.cancelled id reason hc
    exact ⟨hinit, given, mem_append_left _ hg, hup⟩

theorem Core.send (h : s.Core) {message : Outgoing} (hr : ∀ id method, message ≠ .request id method)
    (hc : ∀ id reason, message ≠ .cancelled id reason) : Core { s with sent := s.sent ++ [message] } := by
  have hreq : ∀ id method, .request id method ∈ s.sent ++ [message] → .request id method ∈ s.sent := by
    intro id method hmem
    obtain hmem | hmem := mem_append.mp hmem
    · exact hmem
    · exact absurd (mem_singleton.mp hmem).symm (hr id method)
  refine ⟨h.next_pos, h.nodup, h.unsettled, h.once, h.settled_lt, h.progress, h.tokens,
    fun id method hmem => h.requests id method (hreq id method hmem),
    fun e he hmem => h.cancellable e he (hreq _ _ hmem), ?_, ?_⟩
  · intro id reason hmem
    obtain hmem | hmem := mem_append.mp hmem
    · obtain ⟨hinit, hgiv⟩ := h.cancelled id reason hmem
      exact ⟨fun hmem' => hinit (hreq _ _ hmem'), hgiv⟩
    · exact absurd (mem_singleton.mp hmem).symm (hc id reason)
  · have hnone : message.cancelledId? = none := by
      cases message with
      | cancelled id reason => exact absurd rfl (hc id reason)
      | _ => rfl
    simpa [filterMap_append, hnone] using h.cancelledOnce

theorem Core.cancel (h : s.Core) (he : e ∈ s.pending) (hcan : e.cancellable = true) (hup : how.GivesUp)
    (reason : Option String) :
    Core { s.settle e how with
      sent := (s.settle e how).sent ++ [.cancelled e.id reason] } := by
  have hs := h.settle he how
  have hfr : ∀ reason, .cancelled e.id reason ∉ s.sent := by
    intro reason hmem
    obtain ⟨-, given, hg, -⟩ := h.cancelled e.id reason hmem
    have hin : e.id ∈ s.pending.map (·.id) := mem_map_of_mem he
    exact ((h.unsettled e.id).mp hin).2 (mem_map.mpr ⟨_, hg, rfl⟩)
  have hreq : ∀ id method, .request id method ∈ s.sent ++ [.cancelled e.id reason] → .request id method ∈ s.sent := by
    intro id method hmem
    simpa using hmem
  refine ⟨hs.next_pos, hs.nodup, hs.unsettled, hs.once, hs.settled_lt, hs.progress, hs.tokens,
    fun id method hmem => hs.requests id method (hreq id method hmem),
    fun e' he' hmem => hs.cancellable e' he' (hreq _ _ hmem), ?_, ?_⟩
  · intro id reason' hmem
    obtain hmem | hmem := mem_append.mp hmem
    · obtain ⟨hinit, hgiv⟩ := hs.cancelled id reason' hmem
      exact ⟨fun hmem' => hinit (hreq _ _ hmem'), hgiv⟩
    · obtain ⟨rfl, -⟩ : id = e.id ∧ reason' = reason := by simpa using hmem
      refine ⟨fun hmem' => ?_, how, by simp [McpClient.settle], hup⟩
      have := h.cancellable e he (hreq _ _ hmem')
      simp [hcan] at this
  · simp only [filterMap_append]
    refine nodup_append.mpr ⟨h.cancelledOnce, by simp, ?_⟩
    intro a ha b hb
    obtain ⟨message, hmem, hid⟩ := mem_filterMap.mp ha
    obtain rfl : b = e.id := by simpa using hb
    rintro rfl
    cases message with
    | cancelled id reason' =>
      obtain rfl : id = e.id := by simpa using hid
      exact hfr reason' hmem
    | _ => simp at hid

/-- What a step leaves of the state, besides requests and messages. -/
structure SameState (s s' : McpClient) : Prop where
  state : s'.state = s.state
  closeRuns : s'.closeRuns = s.closeRuns
  transport : s'.transport = s.transport
  listening : s'.listening = s.listening
  closePromise : s'.closePromise = s.closePromise
  pending : s.pending = [] → s'.pending = []

theorem ClientInv.of_same {s' : McpClient} (h : s.ClientInv) (hcore : s'.Core)
    (hsame : SameState s s') : s'.ClientInv := by
  refine ⟨hcore, fun hc => hsame.pending (h.closed (hsame.state ▸ hc)), ?_, ?_, fun hne => ?_, ?_⟩
  · rw [hsame.closeRuns, hsame.state, h.closeRuns]
  · rw [hsame.transport, hsame.listening]
    exact h.listening
  · rw [hsame.listening]
    exact h.pendingListening fun hnil => hne (hsame.pending hnil)
  · rw [hsame.closePromise, hsame.state]
    exact h.promise

theorem sameState_settle (e : PendingRequest) (how : Settlement) : SameState s (s.settle e how) :=
  ⟨rfl, rfl, rfl, rfl, rfl, fun hnil => by simp [McpClient.settle, hnil]⟩

theorem ClientInv.settle (h : s.ClientInv) (he : e ∈ s.pending) (how : Settlement) : (s.settle e how).ClientInv :=
  h.of_same (h.core.settle he how) (sameState_settle e how)

theorem ClientInv.send (h : s.ClientInv) {message : Outgoing} (hr : ∀ id method, message ≠ .request id method)
    (hc : ∀ id reason, message ≠ .cancelled id reason) : ClientInv { s with sent := s.sent ++ [message] } :=
  h.of_same (h.core.send hr hc) ⟨rfl, rfl, rfl, rfl, rfl, fun hnil => hnil⟩

theorem ClientInv.cancelPending (h : s.ClientInv) (id : ℕ) {notifyServer : Bool} (reason : String)
    (hok : notifyServer = true → how.GivesUp ∧ ∀ e ∈ s.pendingOf id, e.cancellable = true) :
    (s.cancelPending id how notifyServer reason).ClientInv := by
  unfold McpClient.cancelPending
  cases he : s.pendingOf id with
  | none => exact h
  | some e =>
    obtain ⟨hmem, rfl⟩ := pendingOf_eq_some he
    simp only
    split
    · rename_i htell
      obtain ⟨htell, -⟩ := Bool.and_eq_true_iff.mp htell
      obtain ⟨hup, hcan⟩ := hok htell
      exact h.of_same (h.core.cancel hmem (hcan e he) hup _) ⟨rfl, rfl, rfl, rfl, rfl, (sameState_settle e how).pending⟩
    · exact h.settle hmem how

/-! ### Closing -/

theorem Core.foldl_settle {es : List PendingRequest} (h : s.Core)
    (hnd : (es.map (·.id)).Nodup) (hes : ∀ e ∈ es, e ∈ s.pending) : (es.foldl (fun s e => s.settle e how) s).Core ∧
      (∀ e, e ∈ (es.foldl (fun s e => s.settle e how) s).pending ↔ e ∈ s.pending ∧ e.id ∉ es.map (·.id)) := by
  induction es generalizing s with
  | nil => exact ⟨h, by simp⟩
  | cons e es ih =>
    obtain ⟨he, hes⟩ := forall_mem_cons.mp hes
    obtain ⟨hnot, hnd⟩ := nodup_cons.mp hnd
    have hpend : ∀ e', e' ∈ (s.settle e how).pending ↔ e' ∈ s.pending ∧ e'.id ≠ e.id := by
      intro e'
      simp [McpClient.settle]
    have hrest : ∀ e' ∈ es, e' ∈ (s.settle e how).pending := by
      intro e' he'
      refine (hpend e').mpr ⟨hes e' he', fun hid => hnot ?_⟩
      exact mem_map.mpr ⟨e', he', hid⟩
    obtain ⟨hcore, hmem⟩ := ih (h.settle he how) hnd hrest
    refine ⟨hcore, fun e' => ?_⟩
    rw [foldl_cons, hmem, hpend, map_cons, mem_cons, not_or, and_assoc]

theorem rejectPending_spec (h : s.Core) (how : Settlement) :
    (s.rejectPending how).Core ∧ (s.rejectPending how).pending = [] := by
  obtain ⟨hcore, hmem⟩ := @Core.foldl_settle s how s.pending h h.nodup fun _ he => he
  refine ⟨hcore, eq_nil_iff_forall_not_mem.mpr fun e he => ?_⟩
  obtain ⟨he, hnot⟩ := (hmem e).mp he
  exact hnot (mem_map_of_mem he)

theorem foldl_settle_same (how : Settlement) (es : List PendingRequest) :
    SameState s (es.foldl (fun s e => s.settle e how) s) := by
  induction es generalizing s with
  | nil => exact ⟨rfl, rfl, rfl, rfl, rfl, fun hnil => hnil⟩
  | cons e es ih =>
    have hstep := @sameState_settle s e how
    have hrest := @ih (s.settle e how)
    exact ⟨hrest.state, hrest.closeRuns, hrest.transport, hrest.listening, hrest.closePromise, fun hnil => hrest.pending (hstep.pending hnil)⟩

/-- **Closing** settles what is pending, and runs the listeners if the client was open. -/
theorem markClosed_spec (h : s.Core) (hruns : s.closeRuns = if s.state = .closed then 1 else 0)
    (hl : s.transport = true → s.listening = true) : s.markClosed.ClientInv ∧ s.markClosed.state = .closed := by
  have hcore : Core { s with state := .closed } := h.relabel .closed _ _ _ _
  obtain ⟨hr, hnil⟩ := rejectPending_spec hcore .closed
  have hsame := @foldl_settle_same { s with state := .closed } .closed s.pending
  have hcl : s.markClosed.state = .closed := hsame.state
  refine ⟨⟨hr.relabel _ _ _ _ _, fun _ => hnil, ?_, ?_, fun hne => absurd hnil hne, fun _ => hcl⟩, hcl⟩
  · rw [hcl, if_pos rfl]
    change (if s.state = .closed then McpClient.closeRuns _ else McpClient.closeRuns _ + 1) = 1
    by_cases hwas : s.state = .closed
    · rw [if_pos hwas]
      exact hsame.closeRuns.trans (hruns.trans (if_pos hwas))
    · rw [if_neg hwas]
      exact congrArg (· + 1) (hsame.closeRuns.trans (hruns.trans (if_neg hwas)))
  · intro ht
    exact hsame.listening.trans (hl (hsame.transport.symm.trans ht))

theorem ClientInv.markClosed (h : s.ClientInv) : s.markClosed.ClientInv :=
  (markClosed_spec h.core h.closeRuns h.listening).1

theorem ClientInv.close (h : s.ClientInv) : s.close.ClientInv := by
  unfold McpClient.close
  split
  · exact h
  · have hcore : Core { s with transport := false, listening := false, closePromise := true } :=
      ⟨h.core.next_pos, h.core.nodup, h.core.unsettled, h.core.once, h.core.settled_lt,
        h.core.progress, h.core.tokens, h.core.requests, h.core.cancellable, h.core.cancelled, h.core.cancelledOnce⟩
    exact (markClosed_spec hcore h.closeRuns (by simp)).1

/-! ### Steps -/

theorem ClientInv.phase (h : s.ClientInv) (phase : ConnectPhase) : ClientInv { s with phase } :=
  h.of_same (h.core.relabel _ _ _ phase _) ⟨rfl, rfl, rfl, rfl, rfl, fun hnil => hnil⟩

theorem ClientInv.failConnect (h : s.ClientInv) : s.failConnect.ClientInv := h.close.phase .rejected

theorem Core.sendRequest (h : s.Core) (method : String) (options : RequestOptions) :
    (s.sendRequest config method options).Core := by
  have hlt : ∀ e ∈ s.pending, e.id < s.nextRequestId := fun e he =>
    ((h.unsettled e.id).mp (mem_map_of_mem he)).1.2
  have hnew : ∀ id method', .request id method' ∈ (s.sendRequest config method options).sent →
      .request id method' ∈ s.sent ∨ id = s.nextRequestId ∧ method' = method := by
    intro id method' hmem
    simpa [McpClient.sendRequest] using hmem
  refine ⟨Nat.succ_pos _, ?_, ?_, h.once, fun id hid => Nat.lt_succ_of_lt (h.settled_lt id hid), ?_, ?_, ?_, ?_, ?_, ?_⟩
  · simp only [McpClient.sendRequest, map_append, map_singleton]
    refine nodup_append.mpr ⟨h.nodup, nodup_singleton _, ?_⟩
    intro a ha b hb
    obtain ⟨e, he, rfl⟩ := mem_map.mp ha
    obtain rfl := mem_singleton.mp hb
    exact Nat.ne_of_lt (hlt e he)
  · intro id
    simp only [McpClient.sendRequest, map_append, map_singleton, mem_append, mem_singleton, h.unsettled id]
    constructor
    · rintro (⟨⟨hpos, hid⟩, hnot⟩ | rfl)
      · exact ⟨⟨hpos, Nat.lt_succ_of_lt hid⟩, hnot⟩
      · exact ⟨⟨h.next_pos, Nat.lt_succ_self _⟩, fun hmem => Nat.lt_irrefl _ (h.settled_lt _ hmem)⟩
    · rintro ⟨⟨hpos, hid⟩, hnot⟩
      obtain hid | hid := Nat.lt_succ_iff_lt_or_eq.mp hid
      · exact .inl ⟨⟨hpos, hid⟩, hnot⟩
      · exact .inr hid
  · simp only [McpClient.sendRequest, filterMap_append, ← h.progress]
    cases options.onProgress <;> simp
  · intro e he token htoke
    simp only [McpClient.sendRequest, mem_append, mem_singleton] at he
    obtain he | rfl := he
    · exact h.tokens e he token htoke
    · cases hpro : options.onProgress <;> simp [hpro] at htoke
      exact htoke.symm
  · intro id method' hmem
    obtain hmem | ⟨rfl, -⟩ := hnew id method' hmem
    · exact Nat.lt_succ_of_lt (h.requests id method' hmem)
    · exact Nat.lt_succ_self _
  · intro e he hmem
    simp only [McpClient.sendRequest, mem_append, mem_singleton] at he
    obtain he | rfl := he
    · obtain hmem | ⟨hid, -⟩ := hnew _ _ hmem
      · exact h.cancellable e he hmem
      · exact absurd hid (Nat.ne_of_lt (hlt e he))
    · obtain hmem | ⟨-, hinit⟩ := hnew _ _ hmem
      · exact absurd (h.requests _ _ hmem) (Nat.lt_irrefl _)
      · simp [← hinit]
  · intro id reason hmem
    have hmem : .cancelled id reason ∈ s.sent := by
      simpa [McpClient.sendRequest] using hmem
    obtain ⟨hinit, given, hg, hup⟩ := h.cancelled id reason hmem
    refine ⟨fun hreq => ?_, given, hg, hup⟩
    obtain hreq | ⟨rfl, -⟩ := hnew _ _ hreq
    · exact hinit hreq
    · exact Nat.lt_irrefl _ (h.settled_lt _ (mem_map.mpr ⟨_, hg, rfl⟩))
  · simpa [McpClient.sendRequest, filterMap_append, filterMap_cons] using h.cancelledOnce

theorem ClientInv.sendRequest (h : s.ClientInv) (hopen : s.state ≠ .closed)
    (ht : s.transport = true) (method : String) (options : RequestOptions) :
    (s.sendRequest config method options).ClientInv :=
  ⟨h.core.sendRequest method options, fun hc => absurd hc hopen, h.closeRuns, h.listening, fun _ => h.listening ht, h.promise⟩

theorem requireTransport_iff {allowConnecting : Bool}
    (h : s.requireTransport allowConnecting = true) : s.transport = true ∧ s.state ≠ .closed := by
  unfold requireTransport at h
  obtain ⟨ht, hs⟩ := Bool.and_eq_true_iff.mp h
  refine ⟨ht, fun hc => ?_⟩
  simp [hc] at hs

theorem ClientInv.requestInternal (h : s.ClientInv) (method : String) (options : RequestOptions)
    (allowConnecting : Bool) : (s.requestInternal config method options allowConnecting).ClientInv := by
  unfold McpClient.requestInternal
  split
  · exact h
  · rename_i hrequ
    obtain ⟨ht, hopen⟩ := requireTransport_iff (by simpa using hrequ)
    split
    · exact h
    · exact h.sendRequest hopen ht method options

end McpClient
end EasyPi.Mcp
