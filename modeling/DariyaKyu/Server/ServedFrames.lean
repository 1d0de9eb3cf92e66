import DariyaKyu.Server.UntoldMembers

/-!
A connection over a whole stream of frames. Each frame whose header decodes gets
one reply under the id of its request, in order, as long as no handler goes to
the active segment of a log that has none. What is not served or does not decode
leaves everything behind it alone.
-/

namespace DariyaKyu.Server

set_option autoImplicit false

open Storage Protocol

section Exchanges

variable {request : RequestContext} {response : Response} {after : BrokerContext}

/-- A request has no reply exactly when it meets a lost segment. -/
theorem exchange_none_iff : exchange request = none ↔ request.MeetsLost := by
  rw [← dispatch_none_iff]
  unfold exchange
  split
  · next none => exact iff_of_true rfl none
  · next answered => exact iff_of_false (Option.some_ne_none _) (by simp [answered])
  · next threw => exact iff_of_false (Option.some_ne_none _) (by simp [threw])

theorem dispatch_grows (request : RequestContext) :
    Grows (({} : Response).append (encodeResponseHeader request.header.correlationId)) (dispatch request) := by
  unfold dispatch
  split
  · intro response after ended
    cases ended
    exact grown_append _ _
  · next handler served =>
    obtain ⟨key, _, rfl⟩ := handler_for_cases served
    exact handler_grows key request _

/-- A reply begins with the id of its request, and has every byte it promises. -/
theorem exchange_replies (exchanged : exchange request = some (response, after)) :
    encodeResponseHeader request.header.correlationId <+: response.sent ∧ response.Covered := by
  have begins : ∀ bytes : Bytes, (({} : Response).append bytes).sent = bytes := sent_append {}
  unfold exchange at exchanged
  split at exchanged
  · cases exchanged
  · next answered =>
    cases exchanged
    have grown := dispatch_grows request response after answered
    have starts := grown.starts
    rw [begins] at starts
    exact ⟨starts, grown.covered (empty_covered.append _)⟩
  · cases exchanged
    refine ⟨?_, empty_covered.append _⟩
    rw [errorResponse, begins]
    exact List.prefix_append _ _

end Exchanges

def bodyDecodes (body : BufferReader) : ApiKey → Bool
  | .produce => (decodeProduceRequest body).isOk
  | .fetch => (decodeFetchRequest body).isOk
  | .listOffsets => (decodeListOffsetsRequest body).isOk
  | .metadata => (decodeMetadataRequest body).isOk
  | .offsetCommit => (decodeOffsetCommitRequest body).isOk
  | .offsetFetch => (decodeOffsetFetchRequest body).isOk
  | .findCoordinator => (decodeFindCoordinatorRequest body).isOk
  | .joinGroup => (decodeJoinGroupRequest body).isOk
  | .heartbeat => (decodeHeartbeatRequest body).isOk
  | .leaveGroup => (decodeLeaveGroupRequest body).isOk
  | .syncGroup => (decodeSyncGroupRequest body).isOk
  | .createTopic => (decodeCreateTopicRequest body).isOk

/-- A frame of which nothing is done: its api is unknown, or its body does not decode. -/
def Unserved (frame : Bytes) : Prop :=
  ∃ header body, decodeRequestHeader (.ofBytes frame) = .ok (header, body) ∧
    ∀ key, RequestHeader.Asks header key → bodyDecodes body key = false

section Refusing

variable {request : RequestContext}

theorem decoding_refused {Request : Type} {decode : Decoder Request} {handle : Request → Handled}
    (broken : (decode request.body).isOk = false) :
    ∃ failure, request.decoding decode handle = some (.error failure, request.broker) := by
  unfold RequestContext.decoding
  cases isDecoded : decode request.body with
  | error failure => exact ⟨failure, rfl⟩
  | ok decoded => simp [isDecoded, Except.isOk, Except.toBool] at broken

theorem handler_refused (out : Response) {key : ApiKey} (broken : bodyDecodes request.body key = false) :
    ∃ failure, handlerOf key request out = some (.error failure, request.broker) := by
  cases key <;> exact decoding_refused broken

theorem exchange_unserved {frame : Bytes} {io : RequestIo} {context : BrokerContext}
    (isRequest : requestIn frame io context = some request) (unserved : Unserved frame) :
    ∃ response, exchange request = some (response, context) := by
  obtain ⟨header, body, decoded, refused⟩ := unserved
  simp only [requestIn, decoded, Except.toOption, Option.map_some, Option.some.injEq] at isRequest
  subst isRequest
  unfold exchange dispatch
  cases served : handlerFor header with
  | none => exact ⟨_, rfl⟩
  | some handler =>
      obtain ⟨key, asks, rfl⟩ := handler_for_cases served
      obtain ⟨failure, threw⟩ := @handler_refused ⟨header, body, frame, context, io⟩
        (({} : Response).append (encodeResponseHeader header.correlationId)) key (refused key asks)
      simp only [threw]
      exact ⟨_, rfl⟩

end Refusing

namespace Connection

variable {maxFrameBytes : Nat} {world : Nat → Round} {context : BrokerContext} {tail : Bytes}

abbrev later (world : Nat → Round) : Nat → Round := fun place => world (place + 1)

theorem serve_loop_framed {frame : Bytes} (frameable : Frameable maxFrameBytes frame) (fuel : Nat) (rest : Bytes) :
    serveLoop maxFrameBytes (fuel + 1) world context (framed frame ++ rest) =
      match requestIn frame (world 0).io ((world 0).others context) with
      | none => { context := context }
      | some request =>
          match exchange request with
          | none => { context := request.broker, died := true }
          | some (response, after) =>
              match writeResponse response with
              | .error _ => { context := after, responses := [response] }
              | .ok written =>
                  (serveLoop maxFrameBytes fuel (later world) after rest).behind written response := by
  simp only [serveLoop, read_frame_framed frameable, requestIn]
  cases decodeRequestHeader (.ofBytes frame) with
  | error failure => rfl
  | ok given => rfl

theorem serve_loop_cut (isCut : CutFrame maxFrameBytes tail) (fuel : Nat) :
    serveLoop maxFrameBytes fuel world context tail = { context := context } := by
  cases fuel with
  | zero => rfl
  | succ fuel =>
      have never := @read_frame_cut _ _ isCut
      unfold serveLoop
      split
      · rfl
      · rfl
      · next taken => exact absurd taken (never _)

/-- The frames that are served: up to the first whose request header does not decode. -/
def readable (frames : List Bytes) : List Bytes :=
  frames.takeWhile fun frame => (decodeRequestHeader (.ofBytes frame)).isOk

/-- The reply to a frame fits its length prefix, and begins with the id of the request. -/
def RepliesTo (frame : Bytes) (response : Response) : Prop :=
  ∃ header body, decodeRequestHeader (.ofBytes frame) = .ok (header, body) ∧
    response.sent.length < 2 ^ 31 ∧ encodeResponseHeader header.correlationId <+: response.sent

/-- One framed reply for each frame that is served, in order, and nothing else. -/
structure AnswersEach (frames : List Bytes) (served : Served) : Prop where
  written : served.output = served.responses.flatMap fun response => framed response.sent
  replies : List.Forall₂ RepliesTo (readable frames) served.responses

/-- Of the frames that are served, none meets a lost segment in the broker it finds. -/
def Spared : List Bytes → (Nat → Round) → BrokerContext → Prop
  | [], _, _ => True
  | frame :: rest, world, context =>
      ∀ request, requestIn frame (world 0).io ((world 0).others context) = some request →
        ¬ request.MeetsLost ∧
          ∀ response after, exchange request = some (response, after) → Spared rest (later world) after

theorem readable_stops {frame : Bytes} {io : RequestIo} (noRequest : requestIn frame io context = none)
    (rest : List Bytes) : readable (frame :: rest) = [] := by
  unfold requestIn at noRequest
  cases decoded : decodeRequestHeader (.ofBytes frame) with
  | error failure => simp [readable, decoded, Except.isOk, Except.toBool]
  | ok given => simp [decoded, Except.toOption] at noRequest

theorem readable_goes_on {frame : Bytes} {io : RequestIo} {request : RequestContext}
    (isRequest : requestIn frame io context = some request) (rest : List Bytes) :
    readable (frame :: rest) = frame :: readable rest ∧
      decodeRequestHeader (.ofBytes frame) = .ok (request.header, request.body) := by
  unfold requestIn at isRequest
  cases decoded : decodeRequestHeader (.ofBytes frame) with
  | error failure => simp [decoded, Except.toOption] at isRequest
  | ok given =>
      simp only [decoded, Except.toOption, Option.map_some, Option.some.injEq] at isRequest
      subst isRequest
      exact ⟨by simp [readable, decoded, Except.isOk, Except.toBool], rfl⟩

/-- What became of a frame with a request: the process died of it, or the reply
is in front of the ones behind it. -/
theorem serve_loop_request {frame rest : Bytes} {request : RequestContext} {fuel : Nat}
    (frameable : Frameable maxFrameBytes frame)
    (isRequest : requestIn frame (world 0).io ((world 0).others context) = some request)
    (small : ∀ response ∈ (serveLoop maxFrameBytes (fuel + 1) world context (framed frame ++ rest)).responses,
      response.totalBytes ≤ 2 ^ 31 - 1) :
    (exchange request = none ∧
      serveLoop maxFrameBytes (fuel + 1) world context (framed frame ++ rest) =
        { context := request.broker, died := true }) ∨
    ∃ response after, exchange request = some (response, after) ∧ RepliesTo frame response ∧
      serveLoop maxFrameBytes (fuel + 1) world context (framed frame ++ rest) =
        (serveLoop maxFrameBytes fuel (later world) after rest).behind (framed response.sent) response := by
  rw [serve_loop_framed frameable, isRequest] at small ⊢
  cases exchanged : exchange request with
  | none => exact .inl ⟨rfl, by simp only [exchanged]⟩
  | some given =>
      obtain ⟨response, after⟩ := given
      obtain ⟨starts, covered⟩ := exchange_replies exchanged
      have fits : response.totalBytes ≤ 2 ^ 31 - 1 := by
        apply small
        simp only [exchanged]
        split <;> exact List.mem_cons_self
      have decoded := (readable_goes_on isRequest []).2
      refine .inr ⟨response, after, rfl, ⟨request.header, request.body, decoded, ?_, starts⟩, ?_⟩
      · rw [sent_length covered]
        omega
      · simp only [exchanged, write_response_framed covered fits]

theorem loop_answers_each_iff {frames : List Bytes} {fuel : Nat}
    (frameable : ∀ frame ∈ frames, Frameable maxFrameBytes frame) (isCut : CutFrame maxFrameBytes tail)
    (enough : frames.length ≤ fuel)
    (small : ∀ response ∈ (serveLoop maxFrameBytes fuel world context (frames.flatMap framed ++ tail)).responses,
      response.totalBytes ≤ 2 ^ 31 - 1) :
    AnswersEach frames (serveLoop maxFrameBytes fuel world context (frames.flatMap framed ++ tail)) ↔
      Spared frames world context := by
  induction frames generalizing fuel world context with
  | nil =>
      rw [List.flatMap_nil, List.nil_append, serve_loop_cut isCut]
      exact iff_of_true ⟨rfl, .nil⟩ trivial
  | cons frame rest ih =>
      obtain ⟨fuel, rfl⟩ : ∃ more, fuel = more + 1 := Nat.exists_eq_succ_of_ne_zero (by
        rw [List.length_cons] at enough
        omega)
      obtain ⟨first, others⟩ := List.forall_mem_cons.mp frameable
      rw [List.flatMap_cons, List.append_assoc] at small ⊢
      cases isRequest : requestIn frame (world 0).io ((world 0).others context) with
      | none =>
          rw [serve_loop_framed first, isRequest]
          refine iff_of_true ⟨rfl, ?_⟩ (by simp [Spared, isRequest])
          rw [readable_stops isRequest]
          exact .nil
      | some request =>
          rcases serve_loop_request first isRequest small with
            ⟨stuck, died⟩ | ⟨response, after, exchanged, repliesTo, goesOn⟩
          · -- the process died before the reply
            rw [died]
            refine iff_of_false ?_ ?_
            · rintro ⟨_, replies⟩
              rw [(readable_goes_on isRequest rest).1] at replies
              cases replies
            · intro spared
              exact (spared request isRequest).1 (exchange_none_iff.mp stuck)
          · rw [goesOn] at small ⊢
            have behind := ih others (by simpa using enough)
              (fun other member => small other (List.mem_cons_of_mem _ member))
            have answered : ¬ request.MeetsLost := by
              rw [← exchange_none_iff, exchanged]
              exact Option.some_ne_none _
            constructor
            · rintro ⟨written, replies⟩ other isOther
              cases isRequest.symm.trans isOther
              refine ⟨answered, ?_⟩
              intro given next isGiven
              cases exchanged.symm.trans isGiven
              rw [(readable_goes_on isRequest rest).1] at replies
              obtain ⟨_, remaining⟩ := List.forall₂_cons.mp replies
              exact behind.mp ⟨List.append_cancel_left written, remaining⟩
            · intro spared
              have remaining := behind.mpr ((spared request isRequest).2 response after exchanged)
              refine ⟨congrArg (framed response.sent ++ ·) remaining.written, ?_⟩
              rw [(readable_goes_on isRequest rest).1]
              exact .cons repliesTo remaining.replies

/-- The world without one frame: what others do before its turn comes before the next. -/
def passingOver : Nat → (Nat → Round) → Nat → Round
  | 0, world, 0 => { world 1 with others := (world 1).others ∘ (world 0).others }
  | 0, world, place + 1 => world (place + 2)
  | _ + 1, world, 0 => world 0
  | behind + 1, world, place + 1 => passingOver behind (later world) place

theorem same_from_next {first second : Nat → Round} {before other : BrokerContext}
    (io : (first 0).io = (second 0).io) (found : (first 0).others before = (second 0).others other)
    (behind : later first = later second) (fuel : Nat) (stream : Bytes) :
    (serveLoop maxFrameBytes fuel first before stream).responses =
      (serveLoop maxFrameBytes fuel second other stream).responses := by
  cases fuel with
  | zero => rfl
  | succ fuel =>
      simp only [serveLoop, io, found]
      split
      · rfl
      · rfl
      split
      · rfl
      split
      · rfl
      split
      · rfl
      · exact congrArg (fun world => _ :: (serveLoop maxFrameBytes fuel world _ _).responses) behind

/-- A frame of which nothing is done has its own reply, and the others have theirs. -/
theorem loop_unserved {before after : List Bytes} {frame : Bytes} {fuel : Nat}
    (frameable : ∀ other ∈ before ++ frame :: after, Frameable maxFrameBytes other) (unserved : Unserved frame)
    (enough : (before ++ after).length ≤ fuel)
    (small : ∀ response ∈ (serveLoop maxFrameBytes (fuel + 1) world context
        ((before ++ frame :: after).flatMap framed ++ tail)).responses,
      response.totalBytes ≤ 2 ^ 31 - 1) :
    (serveLoop maxFrameBytes (fuel + 1) world context
        ((before ++ frame :: after).flatMap framed ++ tail)).responses.eraseIdx before.length =
      (serveLoop maxFrameBytes fuel (passingOver before.length world) context
        ((before ++ after).flatMap framed ++ tail)).responses := by
  induction before generalizing fuel world context with
  | nil =>
      have first := frameable frame (by simp)
      simp only [List.nil_append, List.flatMap_cons, List.append_assoc] at small ⊢
      have ⟨header, body, decoded, _⟩ := unserved
      have isRequest : requestIn frame (world 0).io ((world 0).others context) =
          some ⟨header, body, frame, (world 0).others context, (world 0).io⟩ := by
        simp [requestIn, decoded, Except.toOption]
      rcases exchange_unserved isRequest unserved with ⟨response, answered⟩
      rcases serve_loop_request first isRequest small with
        ⟨stuck, _⟩ | ⟨given, next, exchanged, _, goesOn⟩
      · rw [answered] at stuck
        cases stuck
      · cases answered.symm.trans exchanged
        rw [goesOn]
        exact @same_from_next maxFrameBytes (later world) (passingOver 0 world) _ _ rfl rfl rfl fuel _
  | cons other rest ih =>
      cases fuel with
      | zero => simp at enough
      | succ fuel =>
          rcases List.forall_mem_cons.mp frameable with ⟨first, others⟩
          simp only [List.cons_append, List.flatMap_cons, List.append_assoc] at small ⊢
          cases isRequest : requestIn other (world 0).io ((world 0).others context) with
          | none =>
              have same : requestIn other (passingOver (rest.length + 1) world 0).io
                ((passingOver (rest.length + 1) world 0).others context) = none := isRequest
              rw [List.length_cons, serve_loop_framed first, serve_loop_framed first, isRequest, same]
              rfl
          | some request =>
              have same : requestIn other (passingOver (rest.length + 1) world 0).io
                ((passingOver (rest.length + 1) world 0).others context) = some request := isRequest
              rcases serve_loop_request first isRequest small with
                ⟨stuck, died⟩ | ⟨response, after, exchanged, _, goesOn⟩
              · rw [died, List.length_cons, serve_loop_framed first, same]
                simp only [stuck]
                rfl
              · rw [goesOn] at small ⊢
                have fits : response.totalBytes ≤ 2 ^ 31 - 1 := small response List.mem_cons_self
                have covered := (exchange_replies exchanged).2
                rw [List.length_cons, serve_loop_framed first, same]
                simp only [exchanged, write_response_framed covered fits, Served.behind, List.eraseIdx_cons_succ]
                congr 1
                exact ih others (by simpa using enough) fun given member => small given (List.mem_cons_of_mem _ member)

theorem serve_loop_fuel {frames : List Bytes} {fuel more : Nat}
    (frameable : ∀ frame ∈ frames, Frameable maxFrameBytes frame) (isCut : CutFrame maxFrameBytes tail)
    (enough : frames.length ≤ fuel) (enoughMore : frames.length ≤ more) :
    serveLoop maxFrameBytes fuel world context (frames.flatMap framed ++ tail) =
      serveLoop maxFrameBytes more world context (frames.flatMap framed ++ tail) := by
  induction frames generalizing fuel more world context with
  | nil => rw [List.flatMap_nil, List.nil_append, serve_loop_cut isCut, serve_loop_cut isCut]
  | cons frame rest ih =>
      cases fuel with
      | zero => simp at enough
      | succ fuel =>
          cases more with
          | zero => simp at enoughMore
          | succ more =>
              rcases List.forall_mem_cons.mp frameable with ⟨first, others⟩
              have behind := fun world context =>
                @ih world context fuel more others (by simpa using enough) (by simpa using enoughMore)
              rw [List.flatMap_cons, List.append_assoc, serve_loop_framed first, serve_loop_framed first]
              simp only [behind]

def LeaveOthers (maxFrameBytes : Nat) (frames : List Bytes) (world : Nat → Round) (context : BrokerContext)
    (tail : Bytes) : Prop :=
  ∀ before frame after, frames = before ++ frame :: after → Unserved frame →
    (serve maxFrameBytes world context (frames.flatMap framed ++ tail)).responses.eraseIdx before.length =
      (serve maxFrameBytes (passingOver before.length world) context
        ((before ++ after).flatMap framed ++ tail)).responses

theorem frames_length_le (frames : List Bytes) : frames.length ≤ (frames.flatMap framed).length := by
  induction frames with
  | nil => exact le_rfl
  | cons frame rest ih =>
      rw [List.flatMap_cons, List.length_append, List.length_cons, framed_length]
      omega

/-- A stream of frames gets exactly one framed reply for each, under the id of its
request, and unserved frames leave the others alone, as long as no request meets
a lost segment; and when one does, there is none for it. -/
theorem serve_answers_each_iff {frames : List Bytes} (frameable : ∀ frame ∈ frames, Frameable maxFrameBytes frame)
    (isCut : CutFrame maxFrameBytes tail)
    (small : ∀ response ∈ (serve maxFrameBytes world context (frames.flatMap framed ++ tail)).responses,
      response.totalBytes ≤ 2 ^ 31 - 1) :
    (AnswersEach frames (serve maxFrameBytes world context (frames.flatMap framed ++ tail)) ∧
      LeaveOthers maxFrameBytes frames world context tail) ↔ Spared frames world context := by
  have enough : ∀ frames : List Bytes, frames.length ≤ (frames.flatMap framed ++ tail).length + 1 := by
    intro frames
    have bound := frames_length_le frames
    rw [List.length_append]
    omega
  have answers := loop_answers_each_iff frameable isCut (enough frames) small
  constructor
  · rintro ⟨each, _⟩
    exact answers.mp each
  · intro spared
    refine ⟨answers.mpr spared, ?_⟩
    rintro before frame after rfl unserved
    have others : ∀ other ∈ before ++ after, Frameable maxFrameBytes other :=
      fun other member => frameable other (by
        rcases List.mem_append.mp member with inFront | behind
        · exact List.mem_append_left _ inFront
        · exact List.mem_append_right _ (List.mem_cons_of_mem _ behind))
    have longer := frames_length_le (before ++ frame :: after)
    have fewer : (before ++ after).length ≤ ((before ++ frame :: after).flatMap framed ++ tail).length := by
      simp only [List.length_append, List.length_cons] at longer ⊢
      omega
    refine (loop_unserved frameable unserved fewer small).trans ?_
    rw [serve, serve_loop_fuel others isCut fewer (enough (before ++ after))]

end Connection

/-- A request of an api that nobody serves, and a sync without a body. -/
def refusedFrames : List Bytes :=
  [encodeRequestHeader { apiKey := 99, correlationId := 4 },
    encodeRequestHeader { apiKey := ApiKey.syncGroup.number, correlationId := 5 }]

theorem refused_frames_spared : Connection.Spared refusedFrames (fun _ => {}) freshBroker := by
  intro request isRequest
  cases isRequest
  constructor
  · rintro ⟨key, asks, _⟩
    cases key <;> exact absurd asks.1 (by decide)
  intro response after exchanged
  cases exchanged
  intro request isRequest
  cases isRequest
  constructor
  · rintro ⟨key, asks, meets⟩
    cases key
    case syncGroup => exact meets
    all_goals exact absurd asks.1 (by decide)
  · intro _ _ _
    trivial

/-- Both are answered, and the third frame broke off. -/
theorem serve_answers_each_iff_refused :
    Connection.AnswersEach refusedFrames
      (Connection.serve 100 (fun _ => {}) freshBroker (refusedFrames.flatMap framed ++ [0, 0])) := by
  have bounded : ∀ frame ∈ refusedFrames, frame.length ≤ 100 := by decide
  have isCut : CutFrame 100 [0, 0] := ⟨[], ⟨by decide, by decide⟩, ⟨[0, 0], rfl⟩, by decide⟩
  refine ((Connection.serve_answers_each_iff ?_ isCut ?_).mpr refused_frames_spared).1
  · intro frame member
    have short := bounded frame member
    exact ⟨short, by omega⟩
  · decide +kernel

end DariyaKyu.Server
