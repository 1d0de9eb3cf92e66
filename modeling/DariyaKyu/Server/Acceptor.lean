import DariyaKyu.Library.GuardedRun
import Mathlib.Data.List.Range
import Mathlib.Data.List.Perm.Basic

/-!
`server/acceptor.cpp`: the accept thread, a thread for every connection, and the
thread that calls `stop`. Each step is what one of them does between two points
where another can come in; clients connect, ask and hang up when they like. A socket
is a number, given in the order of the accepts and never given again.

Nothing ignores SIGPIPE: a thread that writes its reply after `stop` has shut its
socket down, or after its client has gone, takes the process with it.
-/

namespace DariyaKyu.Server

set_option autoImplicit false

open GuardedRun

/-- Where the accept thread is. A failed accept returns a closed socket, which is none. -/
inductive AcceptAt where
  | unstarted
  | waiting
  | accepted (socket : Option Nat)
  | reaping (socket : Nat)
  | handing (socket : Nat)
  | ended
  deriving DecidableEq, Repr

/-- Where the first call of `stop` is; every other one returns at once. -/
inductive StopAt where
  | unasked
  | waking
  | joiningAccept
  | closing
  | shutting (place : Nat)
  | joining
  | returned
  deriving DecidableEq, Repr

def StopAt.shuts : StopAt → Bool
  | .shutting _ | .joining | .returned => true
  | _ => false

/-- `Acceptor::Served`: a connection that is not destroyed yet, whether its socket
has been shut down, whether `serve` has begun to read a request that it has not answered,
and whether it has returned. -/
structure ServedConnection where
  socket : Nat
  shut : Bool := false
  answering : Bool := false
  finished : Bool := false
  deriving DecidableEq, Repr

/-- What is pending at the listening socket, what the threads share, and which of the
sockets that were accepted have been closed. -/
structure Acceptor where
  listening : Bool := true
  pending : Nat := 0
  thread : AcceptAt := .unstarted
  stopping : Bool := false
  stop : StopAt := .unasked
  served : List ServedConnection := []
  opened : Nat := 0
  closed : List Nat := []
  woken : Bool := false
  died : Bool := false
  deriving DecidableEq, Repr

inductive AcceptorAction where
  | connect
  | start
  | accept
  | acceptFails (fatal : Bool)
  | check
  | reapFinished
  | spawn (created : Bool)
  | request (place : Nat)
  | reply (place : Nat)
  | serveEnds (place : Nat)
  | serveDies (place : Nat)
  | stop
  | wake (connected : Bool)
  | joinAccept
  | closeListening
  | shutdownNext
  | joinNext
  deriving DecidableEq, Repr

/-- What clients do and the replies to it go on as long as they like. -/
def AcceptorAction.counts : AcceptorAction → Bool
  | .connect | .request _ | .reply _ => false
  | _ => true

namespace Acceptor

/-- An exception that leaves a thread ends the process, as SIGPIPE does, and nothing
happens any more. -/
def step (action : AcceptorAction) (state : Acceptor) : Option Acceptor :=
  if state.died then none
  else
    match action, state.thread, state.stop with
    | .connect, _, _ => if state.listening then some { state with pending := state.pending + 1 } else none
    | .start, .unstarted, .unasked => some { state with thread := .waiting }
    | .accept, .waiting, _ =>
        if state.pending = 0 then none
        else
          some { state with
            pending := state.pending - 1
            thread := .accepted (some state.opened)
            opened := state.opened + 1 }
    | .acceptFails fatal, .waiting, _ =>
        some (if fatal then { state with died := true } else { state with thread := .accepted none })
    -- the flag first: what arrives while stopping is dropped, whoever it is
    | .check, .accepted socket, _ =>
        if state.stopping then some { state with thread := .ended, closed := state.closed ++ socket.toList }
        else
          match socket with
          | none => some { state with thread := .ended }
          | some socket => some { state with thread := .reaping socket }
    | .reapFinished, .reaping socket, _ =>
        some { state with
          thread := .handing socket
          served := state.served.filter fun served => !served.finished
          closed := state.closed ++ (state.served.filter (·.finished)).map (·.socket) }
    | .spawn created, .handing socket, _ =>
        some (if created then { state with thread := .waiting, served := state.served ++ [{ socket := socket }] }
          else { state with died := true })
    -- what has come in is still read behind a shutdown, but nothing can be written then
    | .request place, _, _ =>
        match state.served[place]? with
        | some served =>
            if served.finished || served.answering then none
            else some { state with served := state.served.set place { served with answering := true } }
        | none => none
    | .reply place, _, _ =>
        match state.served[place]? with
        | some served =>
            if served.finished || !served.answering || served.shut then none
            else some { state with served := state.served.set place { served with answering := false } }
        | none => none
    | .serveEnds place, _, _ =>
        match state.served[place]? with
        | some served =>
            if served.finished then none
            else
              some { state with
                served := state.served.set place { served with answering := false, finished := true } }
        | none => none
    | .serveDies place, _, _ =>
        match state.served[place]? with
        | some served => if served.finished || !served.answering then none else some { state with died := true }
        | none => none
    | .stop, thread, .unasked =>
        some { state with stopping := true, stop := if thread = .unstarted then .closing else .waking }
    | .wake connected, _, .waking =>
        some { state with
          stop := .joiningAccept
          woken := connected
          pending := if connected then state.pending + 1 else state.pending }
    | .joinAccept, .ended, .joiningAccept => some { state with stop := .closing }
    | .closeListening, _, .closing => some { state with stop := .shutting 0, listening := false, pending := 0 }
    | .shutdownNext, _, .shutting place =>
        match state.served[place]? with
        | some served =>
            some { state with
              stop := .shutting (place + 1)
              served := state.served.set place { served with shut := true } }
        | none => some { state with stop := .joining }
    -- a join waits until `serve` has returned; the connection goes with its socket then
    | .joinNext, _, .joining =>
        match state.served with
        | [] => some { state with stop := .returned }
        | served :: rest =>
            if served.finished then some { state with served := rest, closed := state.closed ++ [served.socket] }
            else none
    | _, _, _ => none

inductive Steps (state : Acceptor) : AcceptorAction → Acceptor → Prop where
  | connect (listening : state.listening = true) : Steps state .connect { state with pending := state.pending + 1 }
  | start (unstarted : state.thread = .unstarted) (unasked : state.stop = .unasked) :
      Steps state .start { state with thread := .waiting }
  | accept (waiting : state.thread = .waiting) (pending : state.pending ≠ 0) :
      Steps state .accept { state with
        pending := state.pending - 1
        thread := .accepted (some state.opened)
        opened := state.opened + 1 }
  | acceptDies (waiting : state.thread = .waiting) : Steps state (.acceptFails true) { state with died := true }
  | acceptFails (waiting : state.thread = .waiting) :
      Steps state (.acceptFails false) { state with thread := .accepted none }
  | drop {socket : Option Nat} (accepted : state.thread = .accepted socket) (stopping : state.stopping = true) :
      Steps state .check { state with thread := .ended, closed := state.closed ++ socket.toList }
  | giveUp (accepted : state.thread = .accepted none) (going : state.stopping = false) :
      Steps state .check { state with thread := .ended }
  | keep {socket : Nat} (accepted : state.thread = .accepted (some socket)) (going : state.stopping = false) :
      Steps state .check { state with thread := .reaping socket }
  | reapFinished {socket : Nat} (reaping : state.thread = .reaping socket) :
      Steps state .reapFinished { state with
        thread := .handing socket
        served := state.served.filter fun served => !served.finished
        closed := state.closed ++ (state.served.filter (·.finished)).map (·.socket) }
  | spawn {socket : Nat} (handing : state.thread = .handing socket) :
      Steps state (.spawn true) { state with thread := .waiting, served := state.served ++ [{ socket := socket }] }
  | spawnDies {socket : Nat} (handing : state.thread = .handing socket) :
      Steps state (.spawn false) { state with died := true }
  | request {place : Nat} {served : ServedConnection} (there : state.served[place]? = some served)
      (serving : served.finished = false) (idle : served.answering = false) :
      Steps state (.request place) { state with served := state.served.set place { served with answering := true } }
  | reply {place : Nat} {served : ServedConnection} (there : state.served[place]? = some served)
      (serving : served.finished = false) (asked : served.answering = true) (whole : served.shut = false) :
      Steps state (.reply place) { state with served := state.served.set place { served with answering := false } }
  | serveEnds {place : Nat} {served : ServedConnection} (there : state.served[place]? = some served)
      (serving : served.finished = false) :
      Steps state (.serveEnds place) { state with
        served := state.served.set place { served with answering := false, finished := true } }
  | serveDies {place : Nat} {served : ServedConnection} (there : state.served[place]? = some served)
      (serving : served.finished = false) (asked : served.answering = true) :
      Steps state (.serveDies place) { state with died := true }
  | stop (unasked : state.stop = .unasked) :
      Steps state .stop { state with
        stopping := true
        stop := if state.thread = .unstarted then .closing else .waking }
  | wake (connected : Bool) (waking : state.stop = .waking) :
      Steps state (.wake connected) { state with
        stop := .joiningAccept
        woken := connected
        pending := if connected then state.pending + 1 else state.pending }
  | joinAccept (ended : state.thread = .ended) (joining : state.stop = .joiningAccept) :
      Steps state .joinAccept { state with stop := .closing }
  | closeListening (closing : state.stop = .closing) :
      Steps state .closeListening { state with stop := .shutting 0, listening := false, pending := 0 }
  | shutdownNext {place : Nat} {served : ServedConnection} (shutting : state.stop = .shutting place)
      (there : state.served[place]? = some served) :
      Steps state .shutdownNext { state with
        stop := .shutting (place + 1)
        served := state.served.set place { served with shut := true } }
  | allShut {place : Nat} (shutting : state.stop = .shutting place) (all : state.served[place]? = none) :
      Steps state .shutdownNext { state with stop := .joining }
  | joinNext {served : ServedConnection} {rest : List ServedConnection} (joining : state.stop = .joining)
      (first : state.served = served :: rest) (finished : served.finished = true) :
      Steps state .joinNext { state with served := rest, closed := state.closed ++ [served.socket] }
  | allJoined (joining : state.stop = .joining) (empty : state.served = []) :
      Steps state .joinNext { state with stop := .returned }

theorem step_iff {action : AcceptorAction} {state next : Acceptor} :
    step action state = some next ↔ state.died = false ∧ state.Steps action next := by
  constructor
  · intro taken
    unfold step at taken
    split at taken
    · cases taken
    · next alive =>
      refine ⟨by simpa using alive, ?_⟩
      split at taken
      case h_1 =>
        split at taken
        · next listening =>
          cases taken
          exact .connect listening
        · cases taken
      case h_2 unstarted unasked =>
        cases taken
        exact .start unstarted unasked
      case h_3 _ waiting =>
        split at taken
        · cases taken
        · next pending =>
          cases taken
          exact .accept waiting pending
      case h_4 _ fatal waiting =>
        cases taken
        cases fatal with
        | true => exact .acceptDies waiting
        | false => exact .acceptFails waiting
      case h_5 _ socket accepted =>
        split at taken
        · next stopping =>
          cases taken
          exact .drop accepted stopping
        · next going =>
          have running : state.stopping = false := by simpa using going
          cases socket with
          | none =>
              cases taken
              exact .giveUp accepted running
          | some socket =>
              cases taken
              exact .keep accepted running
      case h_6 _ socket reaping =>
        cases taken
        exact .reapFinished reaping
      case h_7 _ created socket handing =>
        cases taken
        cases created with
        | true => exact .spawn handing
        | false => exact .spawnDies handing
      case h_8 place =>
        split at taken
        · next served there =>
          split at taken
          · cases taken
          · next free =>
            rw [Bool.not_eq_true, Bool.or_eq_false_iff] at free
            cases taken
            exact .request there free.1 free.2
        · cases taken
      case h_9 place =>
        split at taken
        · next served there =>
          split at taken
          · cases taken
          · next busy =>
            rw [Bool.not_eq_true, Bool.or_eq_false_iff, Bool.or_eq_false_iff, Bool.not_eq_false'] at busy
            cases taken
            exact .reply there busy.1.1 busy.1.2 busy.2
        · cases taken
      case h_10 place =>
        split at taken
        · next served there =>
          split at taken
          · cases taken
          · next serving =>
            cases taken
            exact .serveEnds there (by simpa using serving)
        · cases taken
      case h_11 place =>
        split at taken
        · next served there =>
          split at taken
          · cases taken
          · next busy =>
            rw [Bool.not_eq_true, Bool.or_eq_false_iff, Bool.not_eq_false'] at busy
            cases taken
            exact .serveDies there busy.1 busy.2
        · cases taken
      case h_12 unasked =>
        cases taken
        exact .stop unasked
      case h_13 connected waking =>
        cases taken
        exact .wake connected waking
      case h_14 ended joining =>
        cases taken
        exact .joinAccept ended joining
      case h_15 closing =>
        cases taken
        exact .closeListening closing
      case h_16 place shutting =>
        split at taken
        · next served there =>
          cases taken
          exact .shutdownNext shutting there
        · next all =>
          cases taken
          exact .allShut shutting all
      case h_17 joining =>
        split at taken
        · next empty =>
          cases taken
          exact .allJoined joining empty
        · next served rest first =>
          split at taken
          · next finished =>
            cases taken
            exact .joinNext joining first finished
          · cases taken
      case h_18 => cases taken
  · rintro ⟨alive, steps⟩
    cases steps <;> simp [step, *]

def inHand (state : Acceptor) : List Nat :=
  match state.thread with
  | .accepted socket => socket.toList
  | .reaping socket => [socket]
  | .handing socket => [socket]
  | _ => []

def sockets (state : Acceptor) : List Nat := state.closed ++ (state.inHand ++ state.served.map (·.socket))

def Over (state : Acceptor) : Prop := state.thread = .ended ∨ state.thread = .unstarted

/-- What is so wherever `stop` has got to. -/
def Known (state : Acceptor) : StopAt → Prop
  | .unasked => state.stopping = false
  | .waking | .joiningAccept => state.stopping = true ∧ state.thread ≠ .unstarted
  | .closing => state.stopping = true ∧ state.Over
  | .shutting place => state.stopping = true ∧ state.Over ∧ state.listening = false ∧
      ∀ earlier < place, ∀ served, state.served[earlier]? = some served → served.shut = true
  | .joining => state.stopping = true ∧ state.Over ∧ state.listening = false ∧
      ∀ served ∈ state.served, served.shut = true
  | .returned => state.stopping = true ∧ state.Over ∧ state.listening = false ∧ state.served = []

/-- A waker that has connected is there for the accept thread to find. -/
def Found (state : Acceptor) : Prop :=
  state.woken = true → state.stopping = true ∧
    (state.thread = .waiting ∨ (∃ socket, state.thread = .reaping socket) ∨ (∃ socket, state.thread = .handing socket) →
      state.pending ≠ 0)

/-- No socket of a connection is shut down before the listening one has been closed. -/
def Untouched (state : Acceptor) : Prop :=
  state.stop.shuts = false → ∀ served ∈ state.served, served.shut = false

structure Holds (state : Acceptor) : Prop where
  sockets : state.sockets.Perm (List.range state.opened)
  known : state.Known state.stop
  untouched : state.Untouched
  found : state.Found

section Steps

variable {action : AcceptorAction} {state next : Acceptor}

theorem sockets_set {place : Nat} {served changed : ServedConnection} (there : state.served[place]? = some served)
    (same : changed.socket = served.socket) :
    (state.served.set place changed).map (·.socket) = state.served.map (·.socket) := by
  apply List.ext_getElem?
  intro other
  by_cases here : other = place
  · subst here
    rcases List.getElem?_eq_some_iff.mp there with ⟨inside, at_place⟩
    simp [inside, at_place, same]
  · simp [List.getElem?_set_ne (Ne.symm here)]

theorem sockets_step (steps : state.Steps action next) (sockets : state.sockets.Perm (List.range state.opened)) :
    next.sockets.Perm (List.range next.opened) := by
  unfold Acceptor.sockets at sockets ⊢
  cases steps with
  | connect | start | acceptDies | acceptFails | serveDies | stop | wake | joinAccept | closeListening | allShut
  | allJoined => simpa [inHand, *] using sockets
  | giveUp accepted going => simpa [inHand, accepted] using sockets
  | keep accepted going => simpa [inHand, accepted] using sockets
  | spawnDies handing => simpa [inHand, handing] using sockets
  | accept waiting pending =>
      simp only [inHand, waiting, List.nil_append] at sockets
      simp only [inHand, Option.toList_some, List.range_succ, List.singleton_append]
      exact (List.perm_middle.trans (sockets.cons _)).trans (List.perm_append_singleton _ _).symm
  | drop accepted stopping =>
      simp only [inHand, accepted] at sockets
      simpa [inHand] using sockets
  | reapFinished reaping =>
      rename_i socket
      simp only [inHand, reaping] at sockets
      simp only [inHand, List.append_assoc]
      refine List.Perm.trans ?_ sockets
      refine List.Perm.append_left _ ?_
      have parted := (List.filter_append_perm (fun served => served.finished) state.served).map (·.socket)
      simp only [List.map_append] at parted
      exact (List.perm_append_comm_assoc _ _ _).trans (parted.append_left [socket])
  | spawn handing =>
      simp only [inHand, handing] at sockets
      simp only [inHand, List.nil_append, List.map_append, List.map_cons, List.map_nil]
      exact (List.perm_append_comm.append_left _).trans sockets
  | request there | reply there | serveEnds there | shutdownNext _ there =>
      simpa [inHand, sockets_set there] using sockets
  | joinNext joining first finished =>
      rw [first, List.map_cons] at sockets
      rw [List.append_assoc]
      refine List.Perm.trans (List.Perm.append_left _ ?_) sockets
      exact (@List.perm_middle _ _ state.inHand _).symm

theorem shut_set {place earlier : Nat} {served changed other : ServedConnection}
    (there : state.served[place]? = some served) (same : changed.shut = served.shut)
    (found : (state.served.set place changed)[earlier]? = some other) :
    ∃ before, state.served[earlier]? = some before ∧ before.shut = other.shut := by
  by_cases here : earlier = place
  · subst here
    rcases List.getElem?_eq_some_iff.mp there with ⟨inside, -⟩
    rw [List.getElem?_set_self inside] at found
    cases found
    exact ⟨served, there, same.symm⟩
  · rw [List.getElem?_set_ne (Ne.symm here)] at found
    exact ⟨other, found, rfl⟩

/-- What `serve` does with its connection shuts nothing down. -/
theorem known_set {place : Nat} {served changed : ServedConnection} (there : state.served[place]? = some served)
    (same : changed.shut = served.shut) (known : state.Known state.stop) :
    ({ state with served := state.served.set place changed } : Acceptor).Known state.stop := by
  cases at_ : state.stop <;> rw [at_] at known
  case unasked | waking | joiningAccept | closing => exact known
  case shutting limit =>
    rcases known with ⟨stopping, idle, deaf, shut⟩
    refine ⟨stopping, idle, deaf, ?_⟩
    intro earlier below other found
    rcases shut_set there same found with ⟨before, was, equal⟩
    rw [← equal]
    exact shut earlier below before was
  case joining =>
    rcases known with ⟨stopping, idle, deaf, shut⟩
    refine ⟨stopping, idle, deaf, ?_⟩
    intro other member
    rcases List.mem_iff_getElem?.mp member with ⟨earlier, found⟩
    rcases shut_set there same found with ⟨before, was, equal⟩
    rw [← equal]
    exact shut before (List.mem_of_getElem? was)
  case returned => simp [known.2.2.2] at there

theorem untouched_set {place : Nat} {served changed : ServedConnection} (there : state.served[place]? = some served)
    (same : changed.shut = served.shut) (untouched : state.Untouched) :
    ({ state with served := state.served.set place changed } : Acceptor).Untouched := by
  intro early other member
  rcases List.mem_iff_getElem?.mp member with ⟨earlier, found⟩
  rcases shut_set there same found with ⟨before, was, equal⟩
  rw [← equal]
  exact untouched early before (List.mem_of_getElem? was)

/-- Once the accept thread touches nothing, every connection there is stays in its
place until it is joined, and what was shut down stays so. -/
theorem known_step (steps : state.Steps action next) (known : state.Known state.stop) : next.Known next.stop := by
  cases steps with
  | connect listening => cases at_ : state.stop <;> simp_all [Known, Over]
  | start unstarted unasked => simp_all [Known]
  | accept waiting pending => cases at_ : state.stop <;> simp_all [Known, Over]
  | acceptDies | spawnDies | serveDies => exact known
  | acceptFails waiting => cases at_ : state.stop <;> simp_all [Known, Over]
  | drop accepted stopping => cases at_ : state.stop <;> simp_all [Known, Over]
  | giveUp accepted going => cases at_ : state.stop <;> simp_all [Known, Over]
  | keep accepted going => cases at_ : state.stop <;> simp_all [Known, Over]
  | reapFinished reaping => cases at_ : state.stop <;> simp_all [Known, Over]
  | spawn handing => cases at_ : state.stop <;> simp_all [Known, Over]
  | request there | reply there | serveEnds there => exact known_set there rfl known
  | stop unasked =>
      by_cases unstarted : state.thread = .unstarted
      · simp [Known, Over, unstarted]
      · simp [Known, unstarted]
  | wake connected waking =>
      rw [waking] at known
      exact known
  | joinAccept ended joining => 
      rw [joining] at known
      exact ⟨known.1, .inl ended⟩
  | closeListening closing => 
      rw [closing] at known
      exact ⟨known.1, known.2, rfl, by simp⟩
  | shutdownNext shutting there =>
      rw [shutting] at known
      rcases known with ⟨stopping, idle, deaf, shut⟩
      refine ⟨stopping, idle, deaf, ?_⟩
      intro earlier below other found
      rcases Nat.lt_succ_iff_lt_or_eq.mp below with before | rfl
      · rw [List.getElem?_set_ne (Nat.ne_of_gt before)] at found
        exact shut earlier before other found
      · rcases List.getElem?_eq_some_iff.mp there with ⟨inside, -⟩
        rw [List.getElem?_set_self inside] at found
        cases found
        rfl
  | allShut shutting all => 
      rw [shutting] at known
      rcases known with ⟨stopping, idle, deaf, shut⟩
      refine ⟨stopping, idle, deaf, ?_⟩
      intro served member
      rcases List.mem_iff_getElem?.mp member with ⟨earlier, there⟩
      have inside := (List.getElem?_eq_some_iff.mp there).1
      exact shut earlier (Nat.lt_of_lt_of_le inside (List.getElem?_eq_none_iff.mp all)) served there
  | joinNext joining first finished => 
      rw [joining] at known
      rcases known with ⟨stopping, idle, deaf, shut⟩
      show Known _ state.stop
      rw [joining]
      exact ⟨stopping, idle, deaf, fun served member => shut served (first ▸ List.mem_cons_of_mem _ member)⟩
  | allJoined joining empty => 
      rw [joining] at known
      exact ⟨known.1, known.2.1, known.2.2.1, empty⟩

theorem found_step (steps : state.Steps action next) (known : state.Known state.stop) (found : state.Found) :
    next.Found := by
  intro woken
  cases steps with
  | connect => 
      rcases found woken with ⟨stopping, -⟩
      exact ⟨stopping, fun _ => Nat.succ_ne_zero _⟩
  | start unstarted unasked =>
      rw [unasked] at known
      cases known.symm.trans (found woken).1
  | accept | acceptFails | drop | giveUp => exact ⟨(found woken).1, by simp⟩
  | acceptDies | request | reply | serveEnds | serveDies | shutdownNext | allShut | joinNext | allJoined =>
      exact found woken
  | joinAccept ended => exact found woken
  | keep accepted going => cases going.symm.trans (found woken).1
  | reapFinished reaping =>
      rcases found woken with ⟨stopping, pending⟩
      exact ⟨stopping, fun _ => pending (.inr (.inl ⟨_, reaping⟩))⟩
  | spawn handing =>
      rcases found woken with ⟨stopping, pending⟩
      exact ⟨stopping, fun _ => pending (.inr (.inr ⟨_, handing⟩))⟩
  | spawnDies handing => exact found woken
  | stop unasked => exact ⟨rfl, (found woken).2⟩
  | wake connected waking =>
      rw [waking] at known
      have connected : connected = true := woken
      exact ⟨known.1, by simp [connected]⟩
  | closeListening closing =>
      rw [closing] at known
      refine ⟨known.1, ?_⟩
      rcases known.2 with ended | unstarted
      · simp [ended]
      · simp [unstarted]

theorem untouched_step (steps : state.Steps action next) (untouched : state.Untouched) : next.Untouched := by
  intro early
  cases steps with
  | connect | start | accept | acceptDies | acceptFails | drop | giveUp | keep | spawnDies | serveDies =>
      exact untouched early
  | stop unasked | wake _ waking | joinAccept _ joining => exact untouched (by simp [StopAt.shuts, *])
  | closeListening | shutdownNext | allShut | allJoined => cases early
  | joinNext joining =>
      have late : state.stop.shuts = false := early
      simp [joining, StopAt.shuts] at late
  | reapFinished reaping => exact fun served member => untouched early served (List.mem_of_mem_filter member)
  | spawn handing =>
      intro served member
      rcases List.mem_append.mp member with before | new
      · exact untouched early served before
      · rw [List.mem_singleton.mp new]
  | request there | reply there | serveEnds there => exact untouched_set there rfl untouched early

theorem holds_step (steps : state.Steps action next) (holds : state.Holds) : next.Holds where
  sockets := sockets_step steps holds.sockets
  known := known_step steps holds.known
  untouched := untouched_step steps holds.untouched
  found := found_step steps holds.known holds.found

end Steps

/-- The state an acceptor is built in, and every order of what may come then. -/
abbrev Happens (state : Acceptor) : Prop := Reaches step (fun _ _ => True) {} state

theorem holds_of_happens {state : Acceptor} (happens : state.Happens) : state.Holds := by
  refine happens.invariant _ _ Holds ⟨by decide, rfl, by simp [Untouched], by simp [Found]⟩ ?_
  intro state action next holds _ taken
  exact holds_step (step_iff.mp taken).2 holds

/-- How far the accept thread is from its next look at the flag. -/
def threadRank : AcceptAt → Nat
  | .unstarted | .ended => 0
  | .accepted _ => 1
  | .waiting => 2
  | .handing _ => 3
  | .reaping _ => 4

def stopRank (connections : Nat) : StopAt → Nat
  | .unasked | .returned => 0
  | .waking => 2 * connections + 5
  | .joiningAccept => 2 * connections + 4
  | .closing => 2 * connections + 3
  | .shutting place => (connections - place) + connections + 2
  | .joining => connections + 1

/-- How many steps there can be until `stop` has returned. -/
def remaining (state : Acceptor) : Nat :=
  if state.died then 0
  else
    4 * threadRank state.thread + state.served.countP (!·.finished) +
      stopRank state.served.length state.stop

theorem remaining_le (state : Acceptor) : state.remaining ≤ 3 * state.served.length + 21 := by
  have thread : threadRank state.thread ≤ 4 := by
    cases state.thread <;> simp [threadRank]
  have unfinished : state.served.countP (!·.finished) ≤ state.served.length := List.countP_le_length
  have stop : stopRank state.served.length state.stop ≤ 2 * state.served.length + 5 := by
    cases state.stop <;> simp only [stopRank] <;> omega
  unfold remaining
  split <;> omega

theorem stop_rank_mono {fewer more : Nat} (le : fewer ≤ more) (stop : StopAt) :
    stopRank fewer stop ≤ stopRank more stop := by
  cases stop <;> simp only [stopRank] <;> omega

theorem stop_rank_succ (connections : Nat) (stop : StopAt) :
    stopRank (connections + 1) stop ≤ stopRank connections stop + 2 := by
  cases stop <;> simp only [stopRank] <;> omega

theorem unfinished_set {state : Acceptor} {place : Nat} {served : ServedConnection}
    (there : state.served[place]? = some served) (changed : ServedConnection)
    (same : changed.finished = served.finished) :
    (state.served.set place changed).countP (!·.finished) = state.served.countP (!·.finished) := by
  rcases List.getElem?_eq_some_iff.mp there with ⟨inside, at_place⟩
  have counted := @List.boole_getElem_le_countP _ (!·.finished) _ _ inside
  rw [at_place] at counted
  rw [List.countP_set inside, at_place, same]
  omega

/-- The accept thread can take on one connection more at the price of the round it
gives up for it. -/
theorem remaining_step {action : AcceptorAction} {state next : Acceptor} (steps : state.Steps action next)
    (alive : state.died = false) (asked : state.stop ≠ .unasked) (stopping : state.stopping = true) :
    next.remaining + (if action.counts then 1 else 0) ≤ state.remaining := by
  cases steps with
  | connect => simp [remaining, AcceptorAction.counts]
  | start unstarted unasked => exact absurd unasked asked
  | stop unasked => exact absurd unasked asked
  | giveUp accepted going => cases going.symm.trans stopping
  | keep accepted going => cases going.symm.trans stopping
  | accept waiting | acceptFails waiting | acceptDies waiting =>
      simp only [remaining, threadRank, waiting, alive, AcceptorAction.counts, if_true, if_false, Bool.false_eq_true]
      omega
  | drop accepted =>
      simp only [remaining, threadRank, accepted, alive, AcceptorAction.counts, if_true, if_false, Bool.false_eq_true]
      omega
  | spawnDies handing =>
      simp only [remaining, threadRank, handing, alive, AcceptorAction.counts, if_true, if_false, Bool.false_eq_true]
      omega
  | reapFinished reaping =>
      have fewer : (state.served.filter fun served => !served.finished).length ≤ state.served.length :=
        List.length_filter_le _ _
      have sooner := stop_rank_mono fewer state.stop
      have same : (state.served.filter fun served => !served.finished).countP (!·.finished) ≤
          state.served.countP (!·.finished) := List.filter_sublist.countP_le
      simp only [remaining, threadRank, reaping, alive, AcceptorAction.counts, if_true, if_false, Bool.false_eq_true]
      omega
  | spawn handing =>
      have later := stop_rank_succ state.served.length state.stop
      simp only [remaining, threadRank, handing, alive, AcceptorAction.counts, if_false, Bool.false_eq_true,
        List.countP_append, List.countP_singleton, Bool.not_false, if_true, List.length_append, List.length_singleton]
      omega
  | @request place served there _ _ =>
      have same := unfinished_set there { served with answering := true } rfl
      simp only [remaining, alive, AcceptorAction.counts, if_false, Bool.false_eq_true, List.length_set, same]
      omega
  | @reply place served there _ _ _ =>
      have same := unfinished_set there { served with answering := false } rfl
      simp only [remaining, alive, AcceptorAction.counts, if_false, Bool.false_eq_true, List.length_set, same]
      omega
  | serveEnds there serving =>
      rcases List.getElem?_eq_some_iff.mp there with ⟨inside, at_place⟩
      have one : 0 < state.served.countP (!·.finished) :=
        List.countP_pos_iff.mpr ⟨_, List.mem_of_getElem? there, by simp [serving]⟩
      simp only [remaining, alive, List.countP_set inside, at_place, serving, List.length_set, Bool.not_false,
        Bool.not_true, AcceptorAction.counts, if_false, if_true, Bool.false_eq_true]
      omega
  | serveDies there serving =>
      have one : 0 < state.served.countP (!·.finished) :=
        List.countP_pos_iff.mpr ⟨_, List.mem_of_getElem? there, by simp [serving]⟩
      simp only [remaining, alive, AcceptorAction.counts, if_false, if_true, Bool.false_eq_true]
      omega
  | wake connected waking =>
      simp only [remaining, alive, waking, stopRank, AcceptorAction.counts, if_true, if_false, Bool.false_eq_true]
      omega
  | joinAccept ended joining =>
      simp only [remaining, alive, joining, stopRank, AcceptorAction.counts, if_true, if_false, Bool.false_eq_true]
      omega
  | closeListening closing =>
      simp only [remaining, alive, closing, stopRank, AcceptorAction.counts, if_true, if_false, Bool.false_eq_true]
      omega
  | @shutdownNext place served shutting there =>
      have inside := (List.getElem?_eq_some_iff.mp there).1
      have same := unfinished_set there { served with shut := true } rfl
      simp only [remaining, alive, shutting, stopRank, List.length_set, same, AcceptorAction.counts, if_true,
        if_false, Bool.false_eq_true]
      omega
  | allShut shutting all =>
      simp only [remaining, alive, shutting, stopRank, AcceptorAction.counts, if_true, if_false, Bool.false_eq_true]
      omega
  | joinNext joining first finished =>
      simp only [remaining, alive, joining, first, finished, stopRank, List.length_cons, List.countP_cons,
        Bool.not_true, AcceptorAction.counts, if_true, if_false, Bool.false_eq_true]
      omega
  | allJoined joining empty =>
      simp only [remaining, alive, joining, empty, stopRank, List.length_nil, AcceptorAction.counts, if_true,
        if_false, Bool.false_eq_true]
      omega

section Asked

variable {action : AcceptorAction} {state next : Acceptor}

theorem asked_step (steps : state.Steps action next) (asked : state.stop ≠ .unasked) : next.stop ≠ .unasked := by
  cases steps with
  | stop unasked => exact absurd unasked asked
  | wake | joinAccept | closeListening | shutdownNext | allShut | allJoined => simp
  | _ => exact asked

theorem stopping_of_asked (known : state.Known state.stop) (asked : state.stop ≠ .unasked) :
    state.stopping = true := by
  cases at_ : state.stop <;> rw [at_] at known
  case unasked => exact absurd at_ asked
  all_goals exact known.1

/-- What was accepted after the question is not handed on. -/
structure ServesBefore (opened : Nat) (state : Acceptor) : Prop where
  stopping : state.stopping = true
  served : ∀ served ∈ state.served, served.socket < opened
  inHand : ∀ socket, state.thread = .reaping socket ∨ state.thread = .handing socket → socket < opened

theorem serves_before_step {opened : Nat} (steps : state.Steps action next) (before : state.ServesBefore opened) :
    next.ServesBefore opened := by
  rcases before with ⟨stopping, served, inHand⟩
  cases steps with
  | connect | acceptDies | spawnDies | serveDies | wake | closeListening | allShut | joinAccept | allJoined =>
      exact ⟨stopping, served, inHand⟩
  | start | accept | acceptFails | drop | giveUp => exact ⟨stopping, served, by simp⟩
  | stop => exact ⟨rfl, served, inHand⟩
  | keep accepted going => cases going.symm.trans stopping
  | reapFinished reaping =>
      refine ⟨stopping, fun connection member => served _ (List.mem_of_mem_filter member), ?_⟩
      rintro socket (now | now)
      · cases now
      · cases now
        exact inHand _ (.inl reaping)
  | spawn handing =>
      refine ⟨stopping, ?_, by simp⟩
      intro connection member
      rcases List.mem_append.mp member with before | new
      · exact served connection before
      · rw [List.mem_singleton.mp new]
        exact inHand _ (.inr handing)
  | request there | reply there | serveEnds there | shutdownNext _ there =>
      refine ⟨stopping, ?_, inHand⟩
      intro connection member
      rcases List.mem_or_eq_of_mem_set member with before | same
      · exact served connection before
      · have below := served _ (List.mem_of_getElem? there)
        rw [same]
        exact below
  | joinNext _ first =>
      refine ⟨stopping, ?_, inHand⟩
      exact fun connection member => served connection (first ▸ List.mem_cons_of_mem _ member)

theorem returned_still (holds : state.Holds) (returned : state.stop = .returned) : step action state = none := by
  rcases holds with ⟨-, known, -, -⟩
  rw [returned] at known
  rcases known with ⟨stopping, idle, deaf, empty⟩
  cases taken : step action state with
  | none => rfl
  | some next =>
      rcases idle with ended | unstarted
      · cases (step_iff.mp taken).2 <;> simp_all
      · cases (step_iff.mp taken).2 <;> simp_all

theorem closes_step (steps : state.Steps action next) :
    ∃ closing, next.closed = state.closed ++ closing ∧
      ∀ socket ∈ closing, socket ∈ state.inHand ∨
        ∃ served ∈ state.served, served.socket = socket ∧ served.finished = true := by
  cases steps with
  | drop accepted => exact ⟨_, rfl, fun socket member => .inl (by simpa [inHand, accepted] using member)⟩
  | reapFinished =>
      refine ⟨_, rfl, ?_⟩
      intro socket member
      rcases List.mem_map.mp member with ⟨served, kept, same⟩
      rcases List.mem_filter.mp kept with ⟨there, finished⟩
      exact .inr ⟨served, there, same, finished⟩
  | joinNext _ first finished =>
      refine ⟨_, rfl, ?_⟩
      intro socket member
      rw [List.mem_singleton.mp member, first]
      exact .inr ⟨_, List.mem_cons_self, rfl, finished⟩
  | _ => exact ⟨[], (List.append_nil _).symm, by simp⟩

end Asked

/-- Every accepted socket is in one place, and is closed once, when nobody serves it.
Behind `stop` all of them are closed, and nothing can happen any more. -/
theorem stop_leaves_nothing {state : Acceptor} (happens : state.Happens) :
    state.sockets.Perm (List.range state.opened) ∧
      (∀ action next, step action state = some next →
        ∃ closing, next.closed = state.closed ++ closing ∧
          ∀ socket ∈ closing, socket ∈ state.inHand ∨
            ∃ served ∈ state.served, served.socket = socket ∧ served.finished = true) ∧
      (state.stop = .joining → ∀ served ∈ state.served, served.shut = true) ∧
      (state.stop = .returned →
        state.listening = false ∧ state.closed.Perm (List.range state.opened) ∧
          ∀ action, step action state = none) := by
  have holds := holds_of_happens happens
  refine ⟨holds.sockets, ?_, ?_, ?_⟩
  · exact fun action next taken => closes_step (step_iff.mp taken).2
  · intro joining
    have known := holds.known
    rw [joining] at known
    exact known.2.2.2
  · intro returned
    have known := holds.known
    rw [returned] at known
    rcases known with ⟨stopping, idle, deaf, empty⟩
    refine ⟨deaf, ?_, fun action => returned_still holds returned⟩
    have sockets := holds.sockets
    rcases idle with ended | unstarted
    · simpa [Acceptor.sockets, inHand, ended, empty] using sockets
    · simpa [Acceptor.sockets, inHand, unstarted, empty] using sockets

theorem stop_leaves_nothing_served :
    ∃ state : Acceptor, state.Happens ∧ state.opened = 2 ∧ state.stop = .returned ∧ state.listening = false ∧
      state.closed.Perm (List.range state.opened) ∧ ∀ action, step action state = none := by
  obtain ⟨state, happens, checked⟩ := found_by_run step (fun _ _ => True) {}
    (fun state => decide (state.opened = 2 ∧ state.stop = .returned))
    [.start, .connect, .accept, .check, .reapFinished, .spawn true, .stop, .wake true, .accept, .check, .joinAccept,
      .closeListening, .shutdownNext, .shutdownNext, .serveEnds 0, .joinNext, .joinNext] (by decide +kernel)
  rcases of_decide_eq_true checked with ⟨opened, returned⟩
  exact ⟨state, happens, opened, returned, (stop_leaves_nothing happens).2.2.2 returned⟩

/-- What the process does by itself: it waits for no client here, and a `serve` whose
socket has been shut down returns, or dies of its reply. -/
def Own (state : Acceptor) : AcceptorAction → Prop
  | .accept | .check | .reapFinished | .wake _ | .joinAccept | .closeListening | .shutdownNext | .joinNext => True
  | .spawn created => created = true
  | .serveEnds place | .serveDies place => ∃ served, state.served[place]? = some served ∧ served.shut = true
  | .connect | .request _ | .reply _ | .start | .acceptFails _ | .stop => False

/-- The accept thread waits for a client that is not there. -/
def Deserted (state : Acceptor) : Prop :=
  state.stop = .joiningAccept ∧ state.thread = .waiting ∧ state.pending = 0

theorem deserted_still {state : Acceptor} (holds : state.Holds) (deserted : state.Deserted) {action : AcceptorAction}
    (own : state.Own action) : step action state = none := by
  rcases deserted with ⟨joining, waiting, nobody⟩
  cases taken : step action state with
  | none => rfl
  | some next =>
      have steps := (step_iff.mp taken).2
      cases action with
      | serveEnds place | serveDies place =>
          rcases own with ⟨served, there, shut⟩
          have whole := holds.untouched (by simp [joining, StopAt.shuts]) served (List.mem_of_getElem? there)
          cases shut.symm.trans whole
      | connect | request | reply | start | acceptFails | stop => cases own
      | _ => cases steps <;> simp_all

/-- Where nothing of its own is possible, `stop` has returned or waits for the accept
thread, and that one for a client. -/
theorem still_cases {state : Acceptor} (holds : state.Holds) (alive : state.died = false)
    (asked : state.stop ≠ .unasked) (still : ∀ action, state.Own action → step action state = none) :
    state.stop = .returned ∨ state.Deserted := by
  have moves : ∀ {action next}, state.Steps action next → ¬state.Own action := by
    intro action next steps own
    cases (step_iff.mpr ⟨alive, steps⟩).symm.trans (still action own)
  have known := holds.known
  cases at_ : state.stop <;> rw [at_] at known
  case unasked => exact absurd at_ asked
  case waking => exact absurd trivial (moves (.wake true at_))
  case joiningAccept =>
    cases thread : state.thread with
    | unstarted => exact absurd thread known.2
    | waiting =>
        by_cases nobody : state.pending = 0
        · exact .inr ⟨at_, thread, nobody⟩
        · exact absurd trivial (moves (.accept thread nobody))
    | accepted socket => exact absurd trivial (moves (.drop thread known.1))
    | reaping socket => exact absurd trivial (moves (.reapFinished thread))
    | handing socket => exact absurd rfl (moves (.spawn thread))
    | ended => exact absurd trivial (moves (.joinAccept thread at_))
  case closing => exact absurd trivial (moves (.closeListening at_))
  case shutting place =>
    cases there : state.served[place]? with
    | none => exact absurd trivial (moves (.allShut at_ there))
    | some served => exact absurd trivial (moves (.shutdownNext at_ there))
  case joining =>
    cases first : state.served with
    | nil => exact absurd trivial (moves (.allJoined at_ first))
    | cons served rest =>
        by_cases finished : served.finished = true
        · exact absurd trivial (moves (.joinNext at_ first finished))
        · have shut := known.2.2.2 served (first ▸ List.mem_cons_self)
          have there : state.served[0]? = some served := by simp [first]
          exact absurd ⟨served, there, shut⟩ (moves (.serveEnds there (by simpa using finished)))
  case returned => exact .inl rfl

/-- What a run keeps that starts once `stop` has been asked for. -/
structure Stopping (opened : Nat) (state : Acceptor) : Prop where
  holds : state.Holds
  asked : state.stop ≠ .unasked
  before : state.ServesBefore opened

theorem stopping_of_happens {state : Acceptor} (happens : state.Happens) (asked : state.stop ≠ .unasked) :
    state.Stopping state.opened := by
  have holds := holds_of_happens happens
  have accepted : ∀ socket ∈ state.sockets, socket < state.opened :=
    fun socket member => List.mem_range.mp (holds.sockets.subset member)
  refine ⟨holds, asked, stopping_of_asked holds.known asked, ?_, ?_⟩
  · intro served member
    exact accepted _ (List.mem_append_right _ (List.mem_append_right _ (List.mem_map_of_mem member)))
  · intro socket now
    have held : socket ∈ state.inHand := by
      rcases now with now | now <;> simp [inHand, now]
    exact accepted socket (List.mem_append_right _ (List.mem_append_left _ held))

theorem Stopping.step {opened : Nat} {action : AcceptorAction} {state next : Acceptor}
    (stopping : state.Stopping opened) (taken : Acceptor.step action state = some next) : next.Stopping opened := by
  have steps := (step_iff.mp taken).2
  exact ⟨holds_step steps stopping.holds, asked_step steps stopping.asked, serves_before_step steps stopping.before⟩

theorem Stopping.falls {opened : Nat} {action : AcceptorAction} {state next : Acceptor}
    (stopping : state.Stopping opened) (taken : Acceptor.step action state = some next) :
    next.remaining + (if action.counts then 1 else 0) ≤ state.remaining := by
  rcases step_iff.mp taken with ⟨alive, steps⟩
  exact remaining_step steps alive stopping.asked stopping.before.stopping

theorem Own.counts {state : Acceptor} {action : AcceptorAction} (own : state.Own action) : action.counts = true := by
  cases action with
  | connect | request | reply => exact own.elim
  | _ => rfl

/-- Left alone the process gets to its end, or to the wait for a client. -/
theorem Stopping.ends {opened : Nat} {state : Acceptor} (stopping : state.Stopping opened) :
    ∃ last, Reaches Acceptor.step Own state last ∧ (last.died = true ∨ last.stop = .returned ∨ last.Deserted) := by
  rcases Reaches.rests Acceptor.step Own (Stopping opened) remaining (fun _ _ _ there _ taken => there.step taken)
      (fun _ _ _ there own taken => Nat.lt_of_succ_le (by simpa [own.counts] using there.falls taken)) .start stopping with
    ⟨last, ran, atLast, still⟩
  refine ⟨last, ran, ?_⟩
  cases died : last.died with
  | true => exact .inl rfl
  | false => exact .inr (still_cases atLast.holds died atLast.asked still)

def Idle (state : Acceptor) : Prop := ∀ served ∈ state.served, served.answering = false

theorem idle_step {action : AcceptorAction} {state next : Acceptor} (steps : state.Steps action next)
    (own : state.Own action) (idle : state.Idle) (alive : state.died = false) : next.Idle ∧ next.died = false := by
  cases steps with
  | connect | start | acceptDies | acceptFails | request | reply | stop => exact own.elim
  | spawnDies => cases own
  | serveDies there _ asked => cases (idle _ (List.mem_of_getElem? there)).symm.trans asked
  | accept | drop | giveUp | keep | wake | joinAccept | closeListening | allShut | allJoined => exact ⟨idle, alive⟩
  | reapFinished => exact ⟨fun served member => idle served (List.mem_of_mem_filter member), alive⟩
  | spawn handing =>
      refine ⟨?_, alive⟩
      intro served member
      rcases List.mem_append.mp member with before | new
      · exact idle served before
      · rw [List.mem_singleton.mp new]
  | serveEnds there =>
      refine ⟨?_, alive⟩
      intro served member
      rcases List.mem_or_eq_of_mem_set member with before | same
      · exact idle served before
      · rw [same]
  | shutdownNext _ there =>
      have whole := idle _ (List.mem_of_getElem? there)
      refine ⟨?_, alive⟩
      intro served member
      rcases List.mem_or_eq_of_mem_set member with before | same
      · exact idle served before
      · rw [same]
        exact whole
  | joinNext _ first => exact ⟨fun served member => idle served (first ▸ List.mem_cons_of_mem _ member), alive⟩

/-- However the clients, the connections and the threads come in between, there are few
steps from the question to the end, and none is missing but the client that `stop`
could not be. A process that is left alone gets there or dies, and does not die while
it has nothing to answer. -/
theorem stop_returns_iff {state : Acceptor} (happens : state.Happens) (asked : state.stop ≠ .unasked)
    {actions : List AcceptorAction} {final : Acceptor}
    (ran : runAll step (fun _ _ => True) actions state = some final) :
    actions.countP (·.counts) ≤ 3 * state.served.length + 21 ∧
      (∀ served ∈ final.served, served.socket < state.opened) ∧
      (∃ last, Reaches step Own final last ∧ (last.died = true ∨ last.stop = .returned ∨ last.Deserted)) ∧
      (final.died = false →
        ((∀ action, final.Own action → step action final = none) ↔ final.stop = .returned ∨ final.Deserted) ∧
          (final.Deserted → final.woken = false) ∧
          (final.Idle → ∀ last, Reaches step Own final last → last.died = false)) := by
  have run := runAll_bounded step (fun _ _ => True) (Stopping state.opened) remaining (·.counts)
    (fun _ _ _ stopping taken => stopping.step taken) (fun _ _ _ stopping taken => stopping.falls taken)
    (stopping_of_happens happens asked) ran
  rcases run with ⟨stopping, bounded⟩
  have ends := stopping.ends
  rcases stopping with ⟨holds, still_asked, before⟩
  have few := remaining_le state
  refine ⟨by omega, before.served, ends, fun alive => ⟨⟨still_cases holds alive still_asked, ?_⟩, ?_, ?_⟩⟩
  · rintro (returned | deserted) action own
    · exact returned_still holds returned
    · exact deserted_still holds deserted own
  · rintro ⟨-, waiting, nobody⟩
    cases woken : final.woken with
    | false => rfl
    | true => exact absurd nobody ((holds.found woken).2 (.inl waiting))
  · intro idle last reached
    refine (reached.invariant _ _ (fun state => state.Idle ∧ state.died = false) ⟨idle, alive⟩ ?_).2
    intro state action next kept own taken
    exact idle_step (step_iff.mp taken).2 own kept.1 kept.2

/-- With a connection being served that has a request to answer: it replies and `stop`
returns, it is still at it when its socket is shut down, or the waker cannot connect. -/
theorem stop_returns_iff_serving :
    ∃ state returned deserted killed : Acceptor, state.Happens ∧ state.stop = .waking ∧
      runAll step (fun _ _ => True)
        [.wake true, .accept, .check, .joinAccept, .reply 0, .closeListening, .shutdownNext, .shutdownNext,
          .serveEnds 0, .joinNext, .joinNext] state = some returned ∧
      (∀ action, returned.Own action → step action returned = none) ∧
      runAll step (fun _ _ => True) [.wake false, .reply 0] state = some deserted ∧ deserted.woken = false ∧
      (∀ action, deserted.Own action → step action deserted = none) ∧
      (∀ last, Reaches step Own deserted last → last.died = false) ∧
      runAll step (fun _ _ => True)
        [.wake true, .accept, .check, .joinAccept, .closeListening, .shutdownNext, .serveDies 0] state =
          some killed ∧ killed.died = true := by
  let state : Acceptor := ⟨true, 0, .waiting, true, .waking, [⟨0, false, true, false⟩], 1, [], false, false⟩
  let returned : Acceptor := ⟨false, 0, .ended, true, .returned, [], 2, [1, 0], true, false⟩
  let deserted : Acceptor := ⟨true, 0, .waiting, true, .joiningAccept, [⟨0, false, false, false⟩], 1, [], false, false⟩
  let killed : Acceptor := ⟨false, 0, .ended, true, .shutting 1, [⟨0, true, true, false⟩], 2, [1], true, true⟩
  have started : runAll step (fun _ _ => True)
      [.start, .connect, .accept, .check, .reapFinished, .spawn true, .request 0, .stop] {} = some state := by
    decide +kernel
  have stops : runAll step (fun _ _ => True)
      [.wake true, .accept, .check, .joinAccept, .reply 0, .closeListening, .shutdownNext, .shutdownNext,
        .serveEnds 0, .joinNext, .joinNext] state = some returned := by decide +kernel
  have waits : runAll step (fun _ _ => True) [.wake false, .reply 0] state = some deserted := by decide +kernel
  have dies : runAll step (fun _ _ => True)
      [.wake true, .accept, .check, .joinAccept, .closeListening, .shutdownNext, .serveDies 0] state =
        some killed := by decide +kernel
  have happens : state.Happens := reaches_of_run step _ .start started
  have atEnd := (stop_returns_iff happens (by decide) stops).2.2.2 rfl
  have atWait := (stop_returns_iff happens (by decide) waits).2.2.2 rfl
  refine ⟨state, returned, deserted, killed, happens, rfl, stops, atEnd.1.mpr (.inl rfl), waits, ?_, ?_, ?_, dies, rfl⟩
  · exact atWait.2.1 ⟨rfl, rfl, rfl⟩
  · exact atWait.1.mpr (.inr ⟨rfl, rfl, rfl⟩)
  · exact atWait.2.2 (by simp [Idle, deserted])

end Acceptor

end DariyaKyu.Server
