import Andaluzcoin.LiveGroups
import Andaluzcoin.TxRequest

/-!
# What the request tracker is for

The specification at the head of `txrequest.h` as a book of announcements in the order of their
receipt. The book knows neither which candidates are ready nor which are the best ones: it has no
clock. What may be requested at a time is read off the book.
-/

namespace TxRequest

open LiveGroups

inductive Status where
  | candidate (reqtime : ℤ)
  | requested (expiry : ℤ)
  | completed
  deriving DecidableEq

/-- An announcement in the book. -/
structure Record (H P : Type) where
  gtxid : GenTxid H
  peer : P
  preferred : Bool
  status : Status
  deriving DecidableEq

namespace Record

variable {H P : Type} [DecidableEq H] [DecidableEq P]

def txhash (r : Record H P) : H := r.gtxid.hash

/-- The announcement has not failed. -/
def isLive (r : Record H P) : Bool := r.status ≠ .completed

def isCandidate (r : Record H P) : Bool :=
  match r.status with
  | .candidate _ => true
  | _ => false

def isRequested (r : Record H P) : Bool :=
  match r.status with
  | .requested _ => true
  | _ => false

/-- The candidate may be requested at this time. -/
def isEligible (now : ℤ) (r : Record H P) : Bool :=
  match r.status with
  | .candidate reqtime => reqtime ≤ now
  | _ => false

/-- The request has not expired at this time. -/
def isOutstanding (now : ℤ) (r : Record H P) : Bool :=
  match r.status with
  | .requested expiry => now < expiry
  | _ => false

/-- The request has expired at this time. -/
def isExpired (now : ℤ) (r : Record H P) : Bool :=
  match r.status with
  | .requested expiry => expiry ≤ now
  | _ => false

def isAt (peer : P) (txhash : H) (r : Record H P) : Bool := r.peer = peer ∧ r.txhash = txhash

def complete (r : Record H P) : Record H P := { r with status := .completed }

/-- One request is made: another one for the hash has failed. -/
def request (peer : P) (txhash : H) (expiry : ℤ) (r : Record H P) : Record H P :=
  if r.isAt peer txhash then { r with status := .requested expiry }
  else if r.txhash = txhash ∧ r.isRequested then r.complete
  else r

def respond (peer : P) (txhash : H) (r : Record H P) : Record H P :=
  if r.isAt peer txhash then r.complete else r

def expire (now : ℤ) (r : Record H P) : Record H P := if r.isExpired now then r.complete else r

def priority (computer : PriorityComputer H P) (r : Record H P) : ℕ :=
  computer.compute r.txhash r.peer r.preferred

end Record

/-- The announcements, in the order of their receipt. -/
abbrev Book (H P : Type) := List (Record H P)

namespace Book

variable {H P : Type} [DecidableEq H] [DecidableEq P]

/-- Hashes of which all announcements have failed are forgotten. -/
def purge (book : Book H P) : Book H P := purgeList Record.txhash Record.isLive book

def call (book : Book H P) : Call H P → Book H P
  | .receivedInv peer gtxid preferred reqtime =>
    if book.any (Record.isAt peer gtxid.hash) then book
    else book ++ [⟨gtxid, peer, preferred, .candidate reqtime⟩]
  | .requestedTx peer txhash expiry =>
    if book.any fun r => r.isAt peer txhash && r.isCandidate then
      book.map (Record.request peer txhash expiry)
    else book
  | .receivedResponse peer txhash => purge (book.map (Record.respond peer txhash))
  | .forgetTxHash txhash => book.filter fun r => r.txhash ≠ txhash
  | .disconnectedPeer peer => purge (book.filter fun r => r.peer ≠ peer)
  | .getRequestable _ now => purge (book.map (Record.expire now))

def run (calls : List (Call H P)) : Book H P := calls.foldl call []

/-- The choice of a peer for every hash at a time. -/
structure Chooses (computer : PriorityComputer H P) (book : Book H P) (now : ℤ)
  (chosen : H → Option P) : Prop where
  /-- A request is due from a peer whose candidate is of the highest priority, and only if no other
  request is outstanding. -/
  best : ∀ txhash peer, chosen txhash = some peer →
    (∀ r ∈ book, r.txhash = txhash → r.isOutstanding now = false) ∧
    ∃ r ∈ book, r.isAt peer txhash = true ∧ r.isEligible now = true ∧
      ∀ s ∈ book, s.txhash = txhash → s.isEligible now = true →
        s.priority computer ≤ r.priority computer
  /-- If no peer is chosen then none can be. -/
  none : ∀ txhash, chosen txhash = none →
    (∃ r ∈ book, r.txhash = txhash ∧ r.isOutstanding now = true) ∨
    ∀ r ∈ book, r.txhash = txhash → r.isEligible now = false

/-- What is to be requested from a peer, in the order of receipt. -/
def requestable (book : Book H P) (chosen : H → Option P) (peer : P) : List (GenTxid H) :=
  (book.filter fun r => r.peer = peer ∧ chosen r.txhash = some peer).map Record.gtxid

def expired (book : Book H P) (now : ℤ) : List (P × GenTxid H) :=
  (book.filter (Record.isExpired now)).map fun r => (r.peer, r.gtxid)

end Book

end TxRequest
