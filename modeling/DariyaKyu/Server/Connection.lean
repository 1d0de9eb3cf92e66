import DariyaKyu.Server.Handlers

/-!
`server/connection.cpp`: one connection, served frame by frame until the stream
ends or stops making sense. Everything that goes wrong behind the header of a
request is answered, since the next frame begins where the last one ended; a
null pointer is not an exception, and ends the process between two answers.
-/

namespace DariyaKyu.Server

set_option autoImplicit false

open Storage Protocol

/-- What the world adds to one request of a connection: what others do to the
broker before its turn, and what it meets itself. -/
structure Round where
  others : BrokerContext → BrokerContext := id
  io : RequestIo := {}

def errorResponse (correlationId : Int) (error : ErrorCode) : Response :=
  ({} : Response).append (encodeResponseHeader correlationId ++ writeErrorCode error)

/-- The response that goes out for a request: the handler's, or that something threw. -/
def exchange (request : RequestContext) : Option (Response × BrokerContext) :=
  match dispatch request with
  | none => none
  | some (.ok response, after) => some (response, after)
  | some (.error _, after) => some (errorResponse request.header.correlationId .corruptMessage, after)

/-- What a connection has written, from which responses, and what it left of the
broker; a process that died wrote nothing more. -/
structure Served where
  output : Bytes := []
  responses : List Response := []
  context : BrokerContext
  died : Bool := false

def Served.behind (served : Served) (written : Bytes) (response : Response) : Served :=
  { served with output := written ++ served.output, responses := response :: served.responses }

namespace Connection

def serveLoop (maxFrameBytes : Nat) : Nat → (Nat → Round) → BrokerContext → Bytes → Served
  | 0, _, context, _ => { context := context }
  | fuel + 1, world, context, stream =>
      match readFrame maxFrameBytes stream with
      | .error _ => { context := context }
      | .ok none => { context := context }
      | .ok (some (frame, rest)) =>
          match decodeRequestHeader (.ofBytes frame) with
          | .error _ => { context := context }
          | .ok (header, body) =>
              let found := (world 0).others context
              match exchange ⟨header, body, frame, found, (world 0).io⟩ with
              | none => { context := found, died := true }
              | some (response, after) =>
                  match writeResponse response with
                  | .error _ => { context := after, responses := [response] }
                  | .ok written =>
                      (serveLoop maxFrameBytes fuel (fun place => world (place + 1)) after rest).behind
                        written response

def serve (maxFrameBytes : Nat) (world : Nat → Round) (context : BrokerContext) (stream : Bytes) : Served :=
  serveLoop maxFrameBytes (stream.length + 1) world context stream

end Connection

end DariyaKyu.Server
