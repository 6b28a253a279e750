/-
# One connection of the control server

`TcpServer::accept` and `TcpServer::protocol_dispatch` (`core/tcp_server.rs`) with the
`Dispatcher` they start (`core/control.rs`, `core/runtime.rs`), as a transition system
on a connection.

* `Conn` is the state of a connection: where the connection's task stands (`Phase`),
  the client's byte source, the dispatcher's command channel, the tasks spawned by
  `dispatch`, and three ghost fields: what `auth_verify` returned (`auth`), whether a
  dispatcher was started (`started`), and the requests handed to the router (`handled`).
* `Act` lists the scheduler's and the environment's choices: which task moves, whether
  a write succeeds, what the router answers, when the connection is torn down.
* `Conn.step` is one move.

`Gated` says that nothing is dispatched or handled before a successful `auth_verify`.
The branch for a failed `auth_verify` writes its reply and then falls through to the
dispatcher, so `Gated` is not an invariant: `gated_iff` states exactly for which
client streams it is.
-/
import Dorodoro.RemoteControl
import Dorodoro.Transition

open FrameReader Transition

namespace TcpServer

/-! ## The state of a connection -/

/-- `Command` of the dispatcher. -/
inductive Command where
  | request (r : Request)
  | response (data : Bytes)
  deriving DecidableEq

/-- A task spawned by `Dispatcher::dispatch`: not yet polled, awaiting
`router::handle_request`, or sending its response. -/
inductive RequestTask where
  | spawned (r : Request)
  | routing (r : Request)
  | responding (data : Bytes)
  deriving DecidableEq

/-- Where the dispatcher's read future stands. -/
inductive ReadFuture where
  | parsing (f : Fut RequestState)
  | sending (cmd : Request)

/-- Where the task of a connection stands. -/
inductive Phase where
  | accepting (f : Fut AcceptState)
  | protocolDispatch (protocol : Protocol)
  | handshaking (f : Fut HandshakeState)
  | verifying (info : AuthInfo)
  | replying (result : Except String Unit)
  | running (read : ReadFuture)
  | closed

/-- A connection. -/
structure Conn where
  phase : Phase
  source : Source IoErrorKind
  sent : Bytes
  channel : List Command
  tasks : List RequestTask
  auth : Option (Except String Unit)
  started : Bool
  handled : List Request

/-- A connection that was just accepted from the listener. -/
def Conn.new (source : Source IoErrorKind) : Conn where
  phase := .accepting Accept.new
  source := source
  sent := []
  channel := []
  tasks := []
  auth := none
  started := false
  handled := []

/-- `CHANNEL_BUFFER`. -/
def channelBuffer : ℕ := 100

/-! ## Moves -/

/-- The result of `write_all`: everything was written, or an error came after `n` bytes. -/
inductive WriteResult where
  | ok
  | failed (n : ℕ)
  deriving DecidableEq

/-- The bytes that reached the socket. -/
def WriteResult.written (data : Bytes) : WriteResult → Bytes
  | .ok => data
  | .failed n => data.take n

/-- What happens next on a connection. -/
inductive Act where
  /-- Poll the future that reads the socket. -/
  | poll
  /-- The socket's peer address is known or not. -/
  | protocolDispatch (peerAddr : Bool)
  | verify
  /-- Write the handshake reply. -/
  | reply (w : WriteResult)
  /-- The read future puts its request on the channel. -/
  | sendCommand
  /-- The dispatcher takes a command from the channel. -/
  | command (w : WriteResult)
  /-- The `k`-th spawned task calls the router. -/
  | handleRequest (k : ℕ)
  /-- The router answers the `k`-th spawned task. -/
  | routed (k : ℕ) (result : Except String Bytes)
  /-- The `k`-th spawned task sends its response, and ends. -/
  | respond (k : ℕ)
  /-- The global cancellation or the abort of the task at an await point. -/
  | cancelled

/-- Poll `Accept`. -/
def Conn.pollAccept (c : Conn) (f : Fut AcceptState) : Conn :=
  match pinPoll accept f c.source with
  | (.pending, f', t) => { c with phase := .accepting f', source := t }
  | (.ready (.ok protocol), _, t) => { c with phase := .protocolDispatch protocol, source := t }
  | (.ready (.error _), _, t) => { c with phase := .closed, source := t }

/-- Poll `HandshakeParse`. -/
def Conn.pollHandshake (c : Conn) (f : Fut HandshakeState) : Conn :=
  match pinPoll handshakeParse f c.source with
  | (.pending, f', t) => { c with phase := .handshaking f', source := t }
  | (.ready (.ok info), _, t) => { c with phase := .verifying info, source := t }
  | (.ready (.error _), _, t) => { c with phase := .closed, source := t }

/-- Poll `RequestParse` inside the dispatcher's read future. -/
def Conn.pollRequest (c : Conn) (f : Fut RequestState) : Conn :=
  match pinPoll requestParse f c.source with
  | (.pending, f', t) => { c with phase := .running (.parsing f'), source := t }
  | (.ready (.ok request), _, t) => { c with phase := .running (.sending request), source := t }
  | (.ready (.error _), _, t) => { c with phase := .closed, source := t }

/-- The match on the protocol in `TcpServer::protocol_dispatch`. -/
def Conn.protocolDispatch (c : Conn) (protocol : Protocol) (peerAddr : Bool) : Conn :=
  match protocol.id with
  | .bitTorrent => { c with phase := .closed }
  | .remoteControl =>
      if peerAddr then { c with phase := .handshaking HandshakeParse.new }
      else { c with phase := .closed }

/-- The bytes of the handshake reply. -/
def handshakeReply : Except String Unit → Bytes
  | .ok () => sendHandshakeSuccess
  | .error e => sendHandshakeFailed .authFailed e

/-- Write the handshake reply, then start the dispatcher.  A write error leaves
`protocol_dispatch` through `?`; otherwise both branches of the credential check
reach `Dispatcher::run`. -/
def Conn.reply (c : Conn) (result : Except String Unit) (w : WriteResult) : Conn :=
  let sent := c.sent ++ w.written (handshakeReply result)
  match w with
  | .failed _ => { c with phase := .closed, sent := sent }
  | .ok => { c with phase := .running (.parsing RequestParse.new), sent := sent, started := true }

/-- `command_handle`: a request spawns a task, a response is written to the socket. -/
def Conn.commandHandle (c : Conn) (read : ReadFuture) (w : WriteResult) : Command → Conn
  | .request r => { c with tasks := c.tasks ++ [.spawned r] }
  | .response data =>
      { c with
        sent := c.sent ++ w.written data
        phase := if w = .ok then .running read else .closed }

/-- The packet of an answered request. -/
def responsePacket (r : Request) : Except String Bytes → ControlResponsePacket
  | .ok data => .ok r.code r.tranId data
  | .error e => .error r.code r.tranId .serverError e

/-- One move of a connection under the configured credentials. -/
def Conn.step (clientAuth : ClientAuth) (c : Conn) : Act → Option Conn
  | .poll =>
      match c.phase with
      | .accepting f => some (c.pollAccept f)
      | .handshaking f => some (c.pollHandshake f)
      | .running (.parsing f) => some (c.pollRequest f)
      | _ => none
  | .protocolDispatch peerAddr =>
      match c.phase with
      | .protocolDispatch protocol => some (c.protocolDispatch protocol peerAddr)
      | _ => none
  | .verify =>
      match c.phase with
      | .verifying info =>
          let result := authVerify clientAuth info
          some { c with phase := .replying result, auth := some result }
      | _ => none
  | .reply w =>
      match c.phase with
      | .replying result => some (c.reply result w)
      | _ => none
  | .sendCommand =>
      match c.phase with
      | .running (.sending r) =>
          if c.channel.length < channelBuffer then
            some { c with
              channel := c.channel ++ [.request r]
              phase := .running (.parsing RequestParse.new) }
          else none
      | _ => none
  | .command w =>
      match c.phase, c.channel with
      | .running read, cmd :: channel =>
          some ({ c with channel := channel }.commandHandle read w cmd)
      | _, _ => none
  | .handleRequest k =>
      match c.tasks[k]? with
      | some (.spawned r) =>
          some { c with tasks := c.tasks.set k (.routing r), handled := c.handled ++ [r] }
      | _ => none
  | .routed k result =>
      match c.tasks[k]? with
      | some (.routing r) =>
          some { c with
            tasks := c.tasks.set k (.responding (packResponse (responsePacket r result))) }
      | _ => none
  | .respond k =>
      match c.tasks[k]?, c.phase with
      | some (.responding data), .running _ =>
          if c.channel.length < channelBuffer then
            some { c with tasks := c.tasks.eraseIdx k, channel := c.channel ++ [.response data] }
          else none
      -- the receiver is gone: `unwrap` ends the task
      | some (.responding _), .closed => some { c with tasks := c.tasks.eraseIdx k }
      | _, _ => none
  | .cancelled => some { c with phase := .closed }

/-! ## The gate -/

/-- **The authentication gate.**  A dispatcher was started, or a request was handed to
the router, only after `auth_verify` returned `Ok` on this connection. -/
def Conn.Gated (c : Conn) : Prop :=
  (c.started = true → c.auth = some (.ok ())) ∧ (c.handled ≠ [] → c.auth = some (.ok ()))

/-- The client stream begins with a complete handshake request whose credentials
`auth_verify` rejects. -/
def RejectedHandshake (clientAuth : ClientAuth) (source : Source IoErrorKind) : Prop :=
  ∃ info rest, info.username.length < 65536 ∧ info.password.length < 65536 ∧
    delivered source = handshakeRequest info ++ rest ∧ authVerify clientAuth info ≠ .ok ()

/-- What the phase of a connection says about the client's bytes `bs`. -/
def Conn.PhaseInv (clientAuth : ClientAuth) (bs : Bytes) (c : Conn) : Prop :=
  match c.phase with
  | .accepting f => c.started = false ∧ f.reader.Open ∧
      accept.view f c.source = accept.parse protocolSize .protocolLen bs
  | .protocolDispatch p => c.started = false ∧
      accept.parse protocolSize .protocolLen bs = some (.ok p, delivered c.source)
  | .handshaking f => c.started = false ∧ f.reader.Open ∧ ∃ payload rest,
      accept.parse protocolSize .protocolLen bs = some (.ok ⟨.remoteControl, payload⟩, rest) ∧
      handshakeParse.view f c.source = handshakeParse.parse usernameLenSize .usernameLen rest
  | .verifying info => c.started = false ∧ ∃ rest, handshakeOf bs = some (info, rest)
  | .replying result => c.started = false ∧ c.auth = some result ∧
      ∃ info rest, handshakeOf bs = some (info, rest) ∧ result = authVerify clientAuth info
  | .running _ => c.started = true
  | .closed => True

/-- The invariant of a connection whose client sends `bs`: a started dispatcher has
seen the result of `auth_verify` on the handshake in `bs`, and there is no work
before the dispatcher was started. -/
structure Conn.Inv (clientAuth : ClientAuth) (bs : Bytes) (c : Conn) : Prop where
  phase : c.PhaseInv clientAuth bs
  auth : c.started = true → ∃ info rest,
    handshakeOf bs = some (info, rest) ∧ c.auth = some (authVerify clientAuth info)
  idle : c.started = false → c.channel = [] ∧ c.tasks = [] ∧ c.handled = []

section Invariant

variable {clientAuth : ClientAuth} {bs : Bytes} {c : Conn}

theorem Conn.inv_new (clientAuth : ClientAuth) (source : Source IoErrorKind) :
    (Conn.new source).Inv clientAuth (delivered source) where
  phase := ⟨rfl, ExactReader.open_new _, accept.view_new _ _ _⟩
  auth := by simp [Conn.new]
  idle := fun _ => ⟨rfl, rfl, rfl⟩

/-- Closing a connection keeps the invariant. -/
theorem Conn.Inv.close (h : c.Inv clientAuth bs) (t : Source IoErrorKind) (sent : Bytes) :
    Conn.Inv clientAuth bs { c with phase := .closed, source := t, sent := sent } :=
  ⟨trivial, h.auth, h.idle⟩

theorem Conn.Inv.pollAccept (h : c.Inv clientAuth bs) {f : Fut AcceptState}
    (hf : c.phase = .accepting f) : (c.pollAccept f).Inv clientAuth bs := by
  have hp := h.phase
  rw [Conn.PhaseInv, hf] at hp
  obtain ⟨hs, hopen, hview⟩ := hp
  unfold Conn.pollAccept
  split
  · next f' t hpoll =>
      obtain ⟨hopen', hview'⟩ := pinPoll_pending hopen hpoll
      exact ⟨⟨hs, hopen', hview'.trans hview⟩, h.auth, h.idle⟩
  · next p f' t hpoll =>
      exact ⟨⟨hs, hview.symm.trans (pinPoll_ok hopen hpoll)⟩, h.auth, h.idle⟩
  · next e f' t hpoll => exact h.close t c.sent

theorem Conn.Inv.pollHandshake (h : c.Inv clientAuth bs) {f : Fut HandshakeState}
    (hf : c.phase = .handshaking f) : (c.pollHandshake f).Inv clientAuth bs := by
  have hp := h.phase
  rw [Conn.PhaseInv, hf] at hp
  obtain ⟨hs, hopen, payload, rest, hacc, hview⟩ := hp
  unfold Conn.pollHandshake
  split
  · next f' t hpoll =>
      obtain ⟨hopen', hview'⟩ := pinPoll_pending hopen hpoll
      exact ⟨⟨hs, hopen', payload, rest, hacc, hview'.trans hview⟩, h.auth, h.idle⟩
  · next info f' t hpoll =>
      have hhs := hview.symm.trans (pinPoll_ok hopen hpoll)
      refine ⟨⟨hs, delivered t, ?_⟩, h.auth, h.idle⟩
      simp only [handshakeOf, hacc, hhs]
  · next e f' t hpoll => exact h.close t c.sent

theorem Conn.Inv.pollRequest (h : c.Inv clientAuth bs) {f : Fut RequestState}
    (hf : c.phase = .running (.parsing f)) : (c.pollRequest f).Inv clientAuth bs := by
  have hp := h.phase
  rw [Conn.PhaseInv, hf] at hp
  unfold Conn.pollRequest
  split
  · exact ⟨hp, h.auth, h.idle⟩
  · exact ⟨hp, h.auth, h.idle⟩
  · next e f' t hpoll => exact h.close t c.sent

theorem Conn.Inv.protocolDispatch (h : c.Inv clientAuth bs) {protocol : Protocol}
    (hf : c.phase = .protocolDispatch protocol) (peerAddr : Bool) :
    (c.protocolDispatch protocol peerAddr).Inv clientAuth bs := by
  have hp := h.phase
  rw [Conn.PhaseInv, hf] at hp
  obtain ⟨hs, hacc⟩ := hp
  obtain ⟨id, payload⟩ := protocol
  cases id with
  | bitTorrent => exact h.close c.source c.sent
  | remoteControl =>
      simp only [Conn.protocolDispatch]
      split
      · refine ⟨⟨hs, ExactReader.open_new _, payload, _, hacc, ?_⟩, h.auth, h.idle⟩
        exact handshakeParse.view_new _ _ _
      · exact h.close c.source c.sent

theorem Conn.Inv.reply (h : c.Inv clientAuth bs) {result : Except String Unit}
    (hf : c.phase = .replying result) (w : WriteResult) :
    (c.reply result w).Inv clientAuth bs := by
  have hp := h.phase
  rw [Conn.PhaseInv, hf] at hp
  obtain ⟨hs, hauth, info, rest, hof, hres⟩ := hp
  cases w with
  | failed n => exact h.close c.source _
  | ok =>
      refine ⟨rfl, fun _ => ⟨info, rest, hof, ?_⟩, fun hfalse => ?_⟩
      · exact hauth.trans (by rw [hres])
      · simp [Conn.reply] at hfalse

theorem Conn.Inv.commandHandle (h : c.Inv clientAuth bs) {read : ReadFuture}
    (hf : c.phase = .running read) {cmd : Command} {channel : List Command} (w : WriteResult) :
    ({ c with channel := channel }.commandHandle read w cmd).Inv clientAuth bs := by
  have hp := h.phase
  rw [Conn.PhaseInv, hf] at hp
  have hidle : c.started = false → False := by simp [hp]
  cases cmd with
  | request r =>
      refine ⟨?_, h.auth, fun hs => (hidle hs).elim⟩
      simpa only [Conn.PhaseInv, Conn.commandHandle, hf] using hp
  | response data =>
      refine ⟨?_, h.auth, fun hs => (hidle hs).elim⟩
      cases w with
      | ok => simpa [Conn.PhaseInv, Conn.commandHandle] using hp
      | failed n => simp [Conn.PhaseInv, Conn.commandHandle]

/-- A spawned task only exists once a dispatcher was started. -/
theorem Conn.Inv.started_of_task (h : c.Inv clientAuth bs) {k : ℕ} {task : RequestTask}
    (hk : c.tasks[k]? = some task) : c.started = true := by
  by_contra hs
  have hnil := (h.idle (by simpa using hs)).2.1
  simp [hnil] at hk

/-- Moves of the spawned tasks keep the invariant: they change neither the phase nor
what is known about the credentials. -/
theorem Conn.Inv.task (h : c.Inv clientAuth bs) (hs : c.started = true)
    (channel : List Command) (tasks : List RequestTask) (handled : List Request) :
    Conn.Inv clientAuth bs
      { c with channel := channel, tasks := tasks, handled := handled } :=
  ⟨h.phase, h.auth, fun hfalse => by simp [hs] at hfalse⟩

/-- **Every move keeps the invariant.** -/
theorem Conn.Inv.step (h : c.Inv clientAuth bs) {a : Act} {c' : Conn}
    (hstep : c.step clientAuth a = some c') : c'.Inv clientAuth bs := by
  cases a with
  | poll =>
      simp only [Conn.step] at hstep
      split at hstep <;> simp only [Option.some.injEq, reduceCtorEq] at hstep
      · next f hf => exact hstep ▸ h.pollAccept hf
      · next f hf => exact hstep ▸ h.pollHandshake hf
      · next f hf => exact hstep ▸ h.pollRequest hf
  | protocolDispatch peerAddr =>
      simp only [Conn.step] at hstep
      split at hstep <;> simp only [Option.some.injEq, reduceCtorEq] at hstep
      next p hf => exact hstep ▸ h.protocolDispatch hf peerAddr
  | verify =>
      simp only [Conn.step] at hstep
      split at hstep <;> simp only [Option.some.injEq, reduceCtorEq] at hstep
      next info hf =>
        have hp := h.phase
        rw [Conn.PhaseInv, hf] at hp
        obtain ⟨hs, rest, hof⟩ := hp
        subst hstep
        refine ⟨⟨hs, rfl, info, rest, hof, rfl⟩, fun htrue => ?_, h.idle⟩
        simp [hs] at htrue
  | reply w =>
      simp only [Conn.step] at hstep
      split at hstep <;> simp only [Option.some.injEq, reduceCtorEq] at hstep
      next result hf => exact hstep ▸ h.reply hf w
  | sendCommand =>
      simp only [Conn.step] at hstep
      split at hstep
      · next r hf =>
          split at hstep <;> simp only [Option.some.injEq, reduceCtorEq] at hstep
          have hp := h.phase
          rw [Conn.PhaseInv, hf] at hp
          subst hstep
          refine ⟨hp, h.auth, fun hfalse => ?_⟩
          simp [hp] at hfalse
      · cases hstep
  | command w =>
      simp only [Conn.step] at hstep
      split at hstep <;> simp only [Option.some.injEq, reduceCtorEq] at hstep
      next read cmd channel hf _ => exact hstep ▸ h.commandHandle hf w
  | handleRequest k =>
      simp only [Conn.step] at hstep
      split at hstep <;> simp only [Option.some.injEq, reduceCtorEq] at hstep
      next r hk => exact hstep ▸ h.task (h.started_of_task hk) c.channel _ _
  | routed k result =>
      simp only [Conn.step] at hstep
      split at hstep <;> simp only [Option.some.injEq, reduceCtorEq] at hstep
      next r hk => exact hstep ▸ h.task (h.started_of_task hk) c.channel _ c.handled
  | respond k =>
      simp only [Conn.step] at hstep
      split at hstep
      · next data read hk hf =>
          split at hstep <;> simp only [Option.some.injEq, reduceCtorEq] at hstep
          exact hstep ▸ h.task (h.started_of_task hk) _ _ c.handled
      · next data hk hf =>
          simp only [Option.some.injEq] at hstep
          exact hstep ▸ h.task (h.started_of_task hk) c.channel _ c.handled
      · cases hstep
  | cancelled =>
      simp only [Conn.step, Option.some.injEq] at hstep
      exact hstep ▸ h.close c.source c.sent

/-- Without a rejected handshake the invariant is the gate. -/
theorem Conn.Inv.gated {source : Source IoErrorKind}
    (h : c.Inv clientAuth (delivered source)) (hr : ¬ RejectedHandshake clientAuth source) :
    c.Gated := by
  have hstart : c.started = true → c.auth = some (.ok ()) := by
    intro hs
    obtain ⟨info, rest, hof, hauth⟩ := h.auth hs
    obtain ⟨hu, hp, hbs⟩ := handshakeOf_eq_some_iff.mp hof
    have hok : authVerify clientAuth info = .ok () := by
      by_contra hne
      exact hr ⟨info, rest, hu, hp, hbs, hne⟩
    rw [hauth, hok]
  refine ⟨hstart, fun hne => hstart ?_⟩
  by_contra hs
  exact hne (h.idle (by simpa using hs)).2.2

end Invariant

/-! ## Every complete handshake reaches the dispatcher -/

section Reach

variable (clientAuth : ClientAuth) (c : Conn)

/-- Pending polls of a parser are moves of the connection, if each of them is one. -/
theorem run_of_polls {S R : Type} {M : Machine S R} {place : Fut S → Source IoErrorKind → Conn}
    (hpoll : ∀ {f f' t t'}, M.poll .connectionAborted f t = (.pending, f', t') →
      Conn.step clientAuth (place f t) .poll = some (place f' t'))
    {n : ℕ} {f f' : Fut S} {t t' : Source IoErrorKind}
    (h : M.Polls .connectionAborted n f t f' t') :
    ∃ as, FreeRun (Conn.step clientAuth) (place f t) as (place f' t') := by
  induction h with
  | refl f t => exact ⟨[], .refl⟩
  | step hpending _ ih =>
      obtain ⟨as, hrun⟩ := ih
      exact ⟨[.poll] ++ as, Run.append (Run.single trivial (hpoll hpending)) hrun⟩

theorem run_of_acceptPolls {n : ℕ} {f f' : Fut AcceptState} {t t' : Source IoErrorKind}
    (h : accept.Polls .connectionAborted n f t f' t') :
    ∃ as, FreeRun (Conn.step clientAuth) { c with phase := .accepting f, source := t } as
      { c with phase := .accepting f', source := t' } := by
  apply run_of_polls clientAuth ?_ h
  intro f f' t t' hpoll
  simp only [Conn.step, Conn.pollAccept, pinPoll, hpoll]

theorem run_of_handshakePolls {n : ℕ} {f f' : Fut HandshakeState} {t t' : Source IoErrorKind}
    (h : handshakeParse.Polls .connectionAborted n f t f' t') :
    ∃ as, FreeRun (Conn.step clientAuth) { c with phase := .handshaking f, source := t } as
      { c with phase := .handshaking f', source := t' } := by
  apply run_of_polls clientAuth ?_ h
  intro f f' t t' hpoll
  simp only [Conn.step, Conn.pollHandshake, pinPoll, hpoll]

/-- A stream that `Accept` parses leads to `protocol_dispatch`. -/
theorem exists_run_protocolDispatch {source : Source IoErrorKind} {p : Protocol} {rest : Bytes}
    (h : accept.parse protocolSize .protocolLen (delivered source) = some (.ok p, rest)) :
    ∃ as t, delivered t = rest ∧ FreeRun (Conn.step clientAuth) (Conn.new source) as
      { Conn.new source with phase := .protocolDispatch p, source := t } := by
  obtain ⟨n, f₁, t₁, f', t', hpolls, hlast, hdel⟩ :=
    accept.exists_polls_of_view .connectionAborted source.length Accept.new source le_rfl
      (ExactReader.open_new _) ((accept.view_new _ _ _).trans h)
  obtain ⟨as, hrun⟩ := run_of_acceptPolls clientAuth (Conn.new source) hpolls
  refine ⟨as ++ [.poll], t', hdel, hrun.tail trivial ?_⟩
  simp only [Conn.step, Conn.pollAccept, pinPoll, hlast]
  rfl

/-- A handshake that parses leads to `auth_verify`. -/
theorem exists_run_verifying {t : Source IoErrorKind} {info : AuthInfo} {rest : Bytes}
    (h : handshakeParse.parse usernameLenSize .usernameLen (delivered t) =
      some (.ok info, rest)) :
    ∃ as t', FreeRun (Conn.step clientAuth)
      { c with phase := .handshaking HandshakeParse.new, source := t } as
      { c with phase := .verifying info, source := t' } := by
  obtain ⟨n, f₁, t₁, f', t', hpolls, hlast, hdel⟩ :=
    handshakeParse.exists_polls_of_view .connectionAborted t.length HandshakeParse.new t le_rfl
      (ExactReader.open_new _) ((handshakeParse.view_new _ _ _).trans h)
  obtain ⟨as, hrun⟩ := run_of_handshakePolls clientAuth c hpolls
  refine ⟨as ++ [.poll], t', hrun.tail trivial ?_⟩
  simp only [Conn.step, Conn.pollHandshake, pinPoll, hlast]
  rfl

/-- **The fall-through.**  Whatever `auth_verify` says about a complete handshake, some
run of the connection starts a dispatcher. -/
theorem exists_run_started {source : Source IoErrorKind} {info : AuthInfo} {rest : Bytes}
    (h : handshakeOf (delivered source) = some (info, rest)) :
    ∃ as c, FreeRun (Conn.step clientAuth) (Conn.new source) as c ∧
      c.started = true ∧ c.auth = some (authVerify clientAuth info) := by
  obtain ⟨hu, hp, hbs⟩ := handshakeOf_eq_some_iff.mp h
  have hacc : accept.parse protocolSize .protocolLen (delivered source) =
      some (.ok ⟨.remoteControl, []⟩, credentials info ++ rest) :=
    accept_parse_remoteControl.mpr
      ⟨by rw [hbs]; simp only [handshakeRequest, List.append_assoc], rfl⟩
  obtain ⟨as, t, ht, hrun₁⟩ := exists_run_protocolDispatch clientAuth hacc
  have hparse : handshakeParse.parse usernameLenSize .usernameLen (delivered t) =
      some (.ok info, rest) :=
    handshakeParse_parse.mpr ⟨hu, hp, by rw [ht]; simp only [credentials, List.append_assoc]⟩
  obtain ⟨bs', t', hrun₂⟩ := exists_run_verifying clientAuth (Conn.new source) hparse
  -- the peer address is known, then the credentials are checked and the reply is written
  have hdispatch : Conn.step clientAuth
      { Conn.new source with phase := .protocolDispatch ⟨.remoteControl, []⟩, source := t }
      (.protocolDispatch true) =
      some { Conn.new source with phase := .handshaking HandshakeParse.new, source := t } := rfl
  have hverify : Conn.step clientAuth
      { Conn.new source with phase := .verifying info, source := t' } .verify =
      some { Conn.new source with
        phase := .replying (authVerify clientAuth info)
        source := t'
        auth := some (authVerify clientAuth info) } := rfl
  have hrun := ((hrun₁.tail trivial hdispatch).append hrun₂).tail trivial hverify
  exact ⟨_, _, hrun.tail (a := .reply .ok) trivial rfl, rfl, rfl⟩

end Reach

/-- **When the gate holds.**  Every run of a connection keeps the gate exactly when the
client's stream does not begin with a complete handshake that `auth_verify` rejects. -/
theorem gated_iff (clientAuth : ClientAuth) (source : Source IoErrorKind) :
    (∀ as c, FreeRun (Conn.step clientAuth) (Conn.new source) as c → c.Gated) ↔
      ¬ RejectedHandshake clientAuth source := by
  constructor
  · rintro hall ⟨info, rest, hu, hp, hbs, hne⟩
    obtain ⟨as, c, hrun, hstart, hauth⟩ :=
      exists_run_started clientAuth (handshakeOf_eq_some_iff.mpr ⟨hu, hp, hbs⟩)
    have hok := (hall as c hrun).1 hstart
    rw [hauth, Option.some.injEq] at hok
    exact hne hok
  · intro hr as c hrun
    have hinv : c.Inv clientAuth (delivered source) :=
      hrun.invariant (Conn.inv_new clientAuth source) fun _ _ _ hi _ hs => hi.step hs
    exact hinv.gated hr

/-- A client that sends the handshake with empty credentials, and one request. -/
def strangerStream : Source IoErrorKind :=
  [.data (handshakeRequest ⟨[], []⟩), .data (toBeBytes 4 1001 ++ toBeBytes 4 7 ++ toBeBytes 4 0)]

/-- Under the default credentials the router handles the request of a client whose
credentials were rejected. -/
theorem handled_without_auth :
    ¬ ∀ as c, FreeRun (Conn.step ⟨"admin", "admin"⟩) (Conn.new strangerStream) as c →
      c.Gated := by
  intro hall
  let acts : List Act := [.poll, .protocolDispatch true, .poll, .verify, .reply .ok, .poll,
    .sendCommand, .command .ok, .handleRequest 0]
  have hrun : (exec (Conn.step ⟨"admin", "admin"⟩) (Conn.new strangerStream) acts).map
      (fun c => (c.auth, c.handled)) = some (some (.error "auth failed"), [⟨1001, 7, none⟩]) := by
    decide +kernel
  obtain ⟨c, hc, hobs⟩ := Option.map_eq_some_iff.mp hrun
  simp only [Prod.mk.injEq] at hobs
  have hok := (hall acts c (Run.of_exec hc)).2 (by simp [hobs.2])
  rw [hobs.1] at hok
  cases hok

end TcpServer
