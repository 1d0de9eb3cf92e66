import DariyaKyu.Storage.Log

/-!
`protocol/error_codes.hpp`: what a response tells a client went wrong. Storage
does not know these codes; each handler translates where it knows whose bytes
they were.
-/

namespace DariyaKyu.Protocol

set_option autoImplicit false

open Storage

inductive ErrorCode where
  | none
  | unknown
  | offsetOutOfRange
  | corruptMessage
  | notLeaderForPartition
  | unknownTopicOrPartition
  | topicAlreadyExists
  | invalidTopic
  | requestTimedOut
  | unsupportedVersion
  | coordinatorNotAvailable
  | notCoordinator
  | illegalGeneration
  | unknownMemberId
  | rebalanceInProgress
  | invalidGroupId
  deriving DecidableEq, Repr

def ErrorCode.number : ErrorCode → Int
  | .none => 0
  | .unknown => 1
  | .offsetOutOfRange => 2
  | .corruptMessage => 3
  | .notLeaderForPartition => 4
  | .unknownTopicOrPartition => 5
  | .topicAlreadyExists => 6
  | .invalidTopic => 7
  | .requestTimedOut => 8
  | .unsupportedVersion => 9
  | .coordinatorNotAvailable => 10
  | .notCoordinator => 11
  | .illegalGeneration => 12
  | .unknownMemberId => 13
  | .rebalanceInProgress => 14
  | .invalidGroupId => 15

def errorCodeFor : ReadError → ErrorCode
  | .none => .none
  | .belowLogStart | .aboveLogEnd => .offsetOutOfRange

end DariyaKyu.Protocol
