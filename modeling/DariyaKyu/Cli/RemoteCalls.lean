import DariyaKyu.Cli.Client
import DariyaKyu.Library.Simulation
import DariyaKyu.Server.ServedFrames

/-!
Any number of clients, each on its own connection, and one broker. A request is
some bytes on their way, then a handler's work, then some bytes on their way
back; everybody else goes on meanwhile. What a client sees is what it would see
if each of its calls were the handler's work alone, done at one moment between
its two halves. The bytes of a frame come together, since a reader waits for the
rest of a frame that it has begun.
-/

namespace DariyaKyu.Cli

set_option autoImplicit false

open Protocol Server GuardedRun

/-- What a client does with its answers; an exception out of a call is its end. -/
inductive Program (Result : Type) where
  | done (result : Result)
  | threw (failure : Error)
  | call (key : ApiKey) (body : Bytes) (next : Bytes → Program Result)

/-- A client and its connection: the id it waits for, the bytes that the broker
has not read yet, those that the client has not, and whether the broker still
serves it. -/
structure Line (Result : Type) where
  client : Client
  program : Program Result
  awaits : Option Int := none
  up : Bytes := []
  down : Bytes := []
  serving : Bool := true

structure Wired (ι Result : Type) where
  context : BrokerContext
  lines : ι → Line Result

inductive WireAction (ι : Type) where
  | send (place : ι)
  | serve (place : ι) (io : RequestIo)
  | receive (place : ι)
  | elsewhere (change : BrokerContext → BrokerContext)

namespace Line

variable {Result : Type}

def send (line : Line Result) : Option (Line Result) :=
  match line.program, line.awaits with
  | .call key body _, none =>
      match line.client.sends key body with
      | .error failure => some { line with client := line.client.advanced, program := .threw failure }
      | .ok frame =>
          some { line with
            client := line.client.advanced
            awaits := some line.client.nextCorrelationId
            up := line.up ++ frame }
  | _, _ => none

/-- The second half; without a byte to read it blocks until the broker hangs up. -/
def receive (line : Line Result) : Option (Line Result) :=
  match line.program, line.awaits with
  | .call _ _ next, some correlationId =>
      if line.down = [] ∧ line.serving = true then none
      else
        match Client.receives correlationId line.down with
        | .error failure => some { line with program := .threw failure, awaits := none }
        | .ok (body, rest) => some { line with program := next body, awaits := none, down := rest }
  | _, _ => none

/-- One round of `Connection::serve`; there is no next state when the process dies. -/
def serve (maxFrameBytes : Nat) (io : RequestIo) (context : BrokerContext) (line : Line Result) :
    Option (Line Result × BrokerContext) :=
  if line.serving = false then none
  else
    match readFrame maxFrameBytes line.up with
    | .error _ => some ({ line with serving := false }, context)
    | .ok none => none
    | .ok (some (frame, rest)) =>
        match requestIn frame io context with
        | none => some ({ line with up := rest, serving := false }, context)
        | some request =>
            match exchange request with
            | none => none
            | some (response, after) =>
                match writeResponse response with
                | .error _ => some ({ line with up := rest, serving := false }, after)
                | .ok written => some ({ line with up := rest, down := line.down ++ written }, after)

end Line

section Systems

variable {ι Result : Type} [DecidableEq ι]

namespace Wired

def start (context : BrokerContext) (clients : ι → Client) (programs : ι → Program Result) : Wired ι Result where
  context := context
  lines := fun place => { client := clients place, program := programs place }

def become (state : Wired ι Result) (place : ι) (line : Line Result) : Wired ι Result :=
  { state with lines := Function.update state.lines place line }

def step (maxFrameBytes : Nat) : WireAction ι → Wired ι Result → Option (Wired ι Result)
  | .send place, state => (state.lines place).send.map (state.become place)
  | .receive place, state => (state.lines place).receive.map (state.become place)
  | .serve place io, state =>
      ((state.lines place).serve maxFrameBytes io state.context).map fun served =>
        { state.become place served.1 with context := served.2 }
  | .elsewhere change, state => some { state with context := change state.context }

/-- Requests and replies are not longer than their readers take them, the ids of
a client have not run out, and the broker changes only as it is let to. -/
def Fits (maxFrameBytes : Nat) (admits : BrokerContext → (BrokerContext → BrokerContext) → Prop)
    (state : Wired ι Result) : WireAction ι → Prop
  | .send place => ∀ key body next, (state.lines place).program = .call key body next →
      (state.lines place).client.Callable ∧
        Frameable maxFrameBytes ((state.lines place).client.request key body)
  | .serve place io => ∀ frame rest request response after,
      readFrame maxFrameBytes (state.lines place).up = .ok (some (frame, rest)) →
        requestIn frame io state.context = some request → exchange request = some (response, after) →
          response.totalBytes ≤ kMaxFrameBytes
  | .receive _ => True
  | .elsewhere change => admits state.context change

end Wired

structure Caller (Result : Type) where
  client : Client
  program : Program Result

structure Direct (ι Result : Type) where
  context : BrokerContext
  callers : ι → Caller Result

inductive DirectAction (ι : Type) where
  | call (place : ι) (io : RequestIo)
  | elsewhere (change : BrokerContext → BrokerContext)

namespace Direct

def start (context : BrokerContext) (clients : ι → Client) (programs : ι → Program Result) : Direct ι Result where
  context := context
  callers := fun place => ⟨clients place, programs place⟩

/-- A call is what the broker makes of its request: the reply behind the id. -/
def step : DirectAction ι → Direct ι Result → Option (Direct ι Result)
  | .call place io, state =>
      match (state.callers place).program with
      | .call key body next => do
          let request ← requestIn ((state.callers place).client.request key body) io state.context
          let (response, after) ← exchange request
          return {
            context := after
            callers := Function.update state.callers place
              ⟨(state.callers place).client.advanced, next (response.sent.drop 4)⟩ }
      | _ => none
  | .elsewhere change, state => some { state with context := change state.context }

def Admits (admits : BrokerContext → (BrokerContext → BrokerContext) → Prop) (state : Direct ι Result) :
    DirectAction ι → Prop
  | .call _ _ => True
  | .elsewhere change => admits state.context change

end Direct

/-- Where a client is on its line: between two calls, in one that the broker has
not seen, or in one that it has answered. -/
inductive Line.Stands (maxFrameBytes : Nat) : Line Result → Caller Result → Prop where
  | between (client : Client) (program : Program Result) :
      Stands maxFrameBytes { client := client, program := program } ⟨client, program⟩
  | asked {client : Client} {key : ApiKey} {body : Bytes} {next : Bytes → Program Result}
      (callable : client.Callable) (frameable : Frameable maxFrameBytes (client.request key body)) :
      Stands maxFrameBytes
        { client := client.advanced
          program := .call key body next
          awaits := some client.nextCorrelationId
          up := framed (client.request key body) }
        ⟨client, .call key body next⟩
  | answered {client : Client} {key : ApiKey} {body given : Bytes} {next : Bytes → Program Result}
      (callable : client.Callable)
      (small : (encodeResponseHeader client.nextCorrelationId ++ given).length ≤ kMaxFrameBytes) :
      Stands maxFrameBytes
        { client := client.advanced
          program := .call key body next
          awaits := some client.nextCorrelationId
          down := framed (encodeResponseHeader client.nextCorrelationId ++ given) }
        ⟨client.advanced, next given⟩

/-- The same broker, and each client where it would be without its line. -/
structure Wired.Agrees (maxFrameBytes : Nat) (state : Wired ι Result) (direct : Direct ι Result) : Prop where
  context : state.context = direct.context
  lines : ∀ place, (state.lines place).Stands maxFrameBytes (direct.callers place)

variable {maxFrameBytes : Nat} {admits : BrokerContext → (BrokerContext → BrokerContext) → Prop}
  {client : Client} {key : ApiKey} {body : Bytes} {next : Bytes → Program Result}
  {line after : Line Result} {caller : Caller Result} {context : BrokerContext} {io : RequestIo}

theorem request_in_call (callable : client.Callable) (key : ApiKey) (body : Bytes) (io : RequestIo)
    (context : BrokerContext) : ∃ position, requestIn (client.request key body) io context =
      some ⟨client.header key, ⟨position, body⟩, client.request key body, context, io⟩ := by
  rcases decode_request_header_encode (@header_encodable client key callable) 0 body with ⟨position, decoded⟩
  refine ⟨position, ?_⟩
  unfold requestIn
  rw [BufferReader.ofBytes, Client.request, decoded]
  rfl

theorem reply_behind_id {request : RequestContext} {response : Response} {left : BrokerContext}
    (exchanged : exchange request = some (response, left)) :
    response.sent = encodeResponseHeader request.header.correlationId ++ response.sent.drop 4 := by
  have ⟨starts, _⟩ := exchange_replies exchanged
  have four : (encodeResponseHeader request.header.correlationId).length = 4 := by
    simp [encodeResponseHeader, writeInt32, writeInt]
  rcases starts with ⟨behind, same⟩
  rw [← same, ← four, List.drop_left]

theorem send_stands (stands : line.Stands maxFrameBytes caller)
    (fits : ∀ key body next, line.program = .call key body next →
      line.client.Callable ∧ Frameable maxFrameBytes (line.client.request key body))
    (sent : line.send = some after) : after.Stands maxFrameBytes caller := by
  cases stands with
  | between client program =>
      cases program with
      | done result => cases sent
      | threw failure => cases sent
      | call key body next =>
          have ⟨callable, frameable⟩ := fits key body next rfl
          simp only [Line.send, sends_framed frameable.fits, List.nil_append, Option.some.injEq] at sent
          subst sent
          exact .asked callable frameable
  | asked callable frameable => cases sent
  | answered callable small => cases sent

theorem receive_stands (stands : line.Stands maxFrameBytes caller) (received : line.receive = some after) :
    after.Stands maxFrameBytes caller := by
  cases stands with
  | between client program => cases program <;> cases received
  | asked callable frameable => simp [Line.receive] at received
  | @answered client key body given next callable small =>
      have some_bytes : framed (encodeResponseHeader client.nextCorrelationId ++ given) ≠ [] := by
        intro empty
        have length := congrArg List.length empty
        rw [framed_length] at length
        simp at length
      have taken := receives_framed callable.correlationId small []
      rw [List.append_nil] at taken
      simp only [Line.receive, some_bytes, false_and, if_false, taken, Option.some.injEq] at received
      subst received
      exact .between _ _

/-- The broker works on a call that it has not seen yet. -/
theorem serve_stands (stands : line.Stands maxFrameBytes caller) {left : BrokerContext}
    (small : ∀ frame rest request response after, readFrame maxFrameBytes line.up = .ok (some (frame, rest)) →
      requestIn frame io context = some request → exchange request = some (response, after) →
        response.totalBytes ≤ kMaxFrameBytes)
    (served : line.serve maxFrameBytes io context = some (after, left)) :
    ∃ key body next request response, caller.program = .call key body next ∧
      requestIn (caller.client.request key body) io context = some request ∧
      exchange request = some (response, left) ∧
      after.Stands maxFrameBytes ⟨caller.client.advanced, next (response.sent.drop 4)⟩ := by
  have nothing : readFrame maxFrameBytes [] = .ok none := rfl
  cases stands with
  | between client program => simp [Line.serve, nothing] at served
  | answered callable small => simp [Line.serve, nothing] at served
  | @asked client key body next callable frameable =>
      have read := read_frame_framed frameable []
      rw [List.append_nil] at read
      rcases request_in_call callable key body io context with ⟨position, isRequest⟩
      simp only [Line.serve, Bool.true_eq_false, if_false, read, isRequest] at served
      split at served
      · cases served
      · next response after exchanged =>
        have ⟨starts, covered⟩ := exchange_replies exchanged
        have short := small _ _ _ _ _ read isRequest exchanged
        have fits : response.totalBytes ≤ 2 ^ 31 - 1 := by
          unfold kMaxFrameBytes at short
          omega
        have behind : response.sent = encodeResponseHeader client.nextCorrelationId ++ response.sent.drop 4 :=
          reply_behind_id exchanged
        simp only [write_response_framed covered fits, List.nil_append, Option.some.injEq, Prod.mk.injEq] at served
        rcases served with ⟨rfl, rfl⟩
        refine ⟨_, _, _, _, response, rfl, isRequest, exchanged, ?_⟩
        rw [behind, List.drop_left' (by simp [encodeResponseHeader, writeInt32, writeInt])]
        apply Line.Stands.answered callable
        rw [← behind, sent_length covered]
        exact short

theorem agrees_become {state : Wired ι Result} {direct : Direct ι Result} (agrees : state.Agrees maxFrameBytes direct)
    (place : ι) (stands : after.Stands maxFrameBytes caller) :
    ∀ other, ((state.become place after).lines other).Stands maxFrameBytes
      (Function.update direct.callers place caller other) := by
  intro other
  by_cases same : other = place
  · subst same
    simpa [Wired.become] using stands
  · simpa [Wired.become, same] using agrees.lines other

/-- Only the work of a handler is a step of the calls. -/
theorem wired_simulates : Simulates (@Wired.step ι Result _ maxFrameBytes) (Wired.Fits maxFrameBytes admits)
    Direct.step (Direct.Admits admits) (Wired.Agrees maxFrameBytes) := by
  intro state direct action next agrees fits taken
  have alone : ∀ place line, line.Stands maxFrameBytes (direct.callers place) →
      (state.become place line).Agrees maxFrameBytes direct := by
    intro place line stands
    have lines := agrees_become agrees place stands
    rw [Function.update_eq_self] at lines
    exact ⟨agrees.context, lines⟩
  cases action with
  | send place =>
      rcases Option.map_eq_some_iff.mp taken with ⟨line, sent, rfl⟩
      exact ⟨direct, .start, alone place line (send_stands (agrees.lines place) fits sent)⟩
  | receive place =>
      rcases Option.map_eq_some_iff.mp taken with ⟨line, received, rfl⟩
      exact ⟨direct, .start, alone place line (receive_stands (agrees.lines place) received)⟩
  | serve place io =>
      rcases Option.map_eq_some_iff.mp taken with ⟨⟨line, left⟩, served, rfl⟩
      rcases serve_stands (agrees.lines place) fits served with
        ⟨key, body, onward, request, response, isCall, isRequest, exchanged, stands⟩
      refine ⟨⟨left, Function.update direct.callers place
        ⟨(direct.callers place).client.advanced, onward (response.sent.drop 4)⟩⟩,
        .single (.call place io) trivial ?_, rfl, agrees_become agrees place stands⟩
      rw [agrees.context] at isRequest
      simp only [Direct.step, isCall, isRequest, exchanged, Option.bind_eq_bind, Option.bind_some]
      rfl
  | elsewhere change =>
      cases taken
      have admitted : admits direct.context change := agrees.context ▸ fits
      exact ⟨_, .single (.elsewhere change) admitted rfl, congrArg change agrees.context, agrees.lines⟩

/-- Calls over connections are calls of the handlers: whatever the clients, the
broker and everybody else have done, in whatever order, some run of direct calls
has left the same broker, and every client between two calls as it is. -/
theorem remote_calls_are_direct {clients : ι → Client} {programs : ι → Program Result} {state : Wired ι Result}
    (reached : Reaches (Wired.step maxFrameBytes) (Wired.Fits maxFrameBytes admits)
      (Wired.start context clients programs) state) :
    ∃ direct, Reaches Direct.step (Direct.Admits admits) (Direct.start context clients programs) direct ∧
      state.Agrees maxFrameBytes direct := by
  have begins : (Wired.start context clients programs).Agrees maxFrameBytes
      (Direct.start context clients programs) := ⟨rfl, fun place => .between _ _⟩
  exact wired_simulates.run begins reached

end Systems

def joinBesideHeartbeat : Bool → Program Bytes
  | true => .call .joinGroup newMemberBody .done
  | false => .call .heartbeat [] .done

set_option maxRecDepth 20000 in
/-- Both requests are on their way before one of them is served, and both replies before
one of them is read. -/
theorem remote_calls_are_direct_refused :
    ∃ (state : Wired Bool Bytes) (direct : Direct Bool Bytes) (joined : Bytes),
      (state.lines true).program = .done joined ∧ (state.lines false).program = .done (writeErrorCode .corruptMessage) ∧
      state.context.groups.hasMember [103] (({} : Client).clientId ++ [45, 49]) = true ∧
      Reaches Direct.step (Direct.Admits fun _ _ => False)
        (Direct.start freshBroker (fun _ => {}) joinBesideHeartbeat) direct ∧
      state.Agrees 100 direct := by
  have reached : ∃ (state : Wired Bool Bytes) (joined : Bytes), (state.lines true).program = .done joined ∧
      (state.lines false).program = .done (writeErrorCode .corruptMessage) ∧
      state.context.groups.hasMember [103] (({} : Client).clientId ++ [45, 49]) = true ∧
      Reaches (Wired.step 100) (Wired.Fits 100 fun _ _ => False)
        (Wired.start freshBroker (fun _ => {}) joinBesideHeartbeat) state := by
    refine ⟨_, _, rfl, ?_, ?_, .step (.step (.step (.step (.step (.step .start (.send true) ?_ rfl) (.send false) ?_ rfl)
      (.serve false {}) ?_ rfl) (.serve true {}) ?_ rfl) (.receive true) trivial rfl) (.receive false) trivial rfl⟩
    · rfl
    · decide +kernel
    · intro key body next same
      cases same
      exact ⟨⟨by decide, by decide⟩, by decide, by decide⟩
    · intro key body next same
      cases same
      exact ⟨⟨by decide, by decide⟩, by decide, by decide⟩
    · intro frame rest request response after read isRequest exchanged
      cases read
      cases isRequest
      cases exchanged
      decide
    · intro frame rest request response after read isRequest exchanged
      cases read
      cases isRequest
      cases exchanged
      decide
  rcases reached with ⟨state, joined, isJoined, refused, member, run⟩
  rcases remote_calls_are_direct run with ⟨direct, direct_run, agrees⟩
  exact ⟨state, direct, joined, isJoined, refused, member, direct_run, agrees⟩

end DariyaKyu.Cli
