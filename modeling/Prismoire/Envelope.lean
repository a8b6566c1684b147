import Prismoire.Lib.RecentSet
import Prismoire.Signed

namespace Prismoire.Envelope

open Lib

/-- The ways an inbound envelope is turned away. -/
inductive VerifyError where
  | missingHeader
  | badBase64
  | badWireFormat
  | badPayload
  | notFedEnvelope
  | unknownSender
  | signatureFailed
  | wrongReceiver
  | methodMismatch
  | pathMismatch
  | bodyHashMismatch
  | clockSkew
  | replay

inductive VerifyMode where
  | knownPeer
  | bootstrap
  deriving DecidableEq

def maxClockSkewMs : Nat := 60000

/-- The keys of the replay defence: a sender and a nonce. -/
abbrev NonceLru := RecentSet (Key × Uuid)

/-- What the verifier is given besides the request: the libraries, its own key and the capacity. -/
structure Verifier where
  platform : Platform
  base64UrlDecode : Bytes → Option Bytes
  ourPubkey : Key
  maxSize : Nat

/-- A call: the request, and the peers and the clock as the call finds them. -/
structure Call where
  activePeers : List Key
  now : Nat
  mode : VerifyMode
  method : Text
  path : Text
  body : Bytes
  header : Option Bytes

def toAsciiUppercase (text : Text) : Text :=
  String.ofList (text.toList.map Char.toUpper)

/-- `HeaderValue::to_str`: visible ASCII and tabs. -/
def headerToStr (header : Bytes) : Option Bytes :=
  if header.all fun byte => (0x20 ≤ byte && byte < 0x7F) || byte == 0x09 then some header else none

section

variable (verifier : Verifier)

def readEnvelope (header : Option Bytes) : Except VerifyError (FedEnvelope × Bytes × Bytes) := do
  let header ← header.elim (.error .missingHeader) .ok
  let headerStr ← (headerToStr header).elim (.error .badBase64) .ok
  let wireBytes ← (verifier.base64UrlDecode headerStr).elim (.error .badBase64) .ok
  let (payloadBytes, signatureBytes) ←
    (verifier.platform.decodeSignedObject wireBytes).elim (.error .badWireFormat) .ok
  match verifier.platform.parse payloadBytes with
  | none => .error .badPayload
  | some (.fedEnvelope envelope) => .ok (envelope, payloadBytes, signatureBytes)
  | some _ => .error .notFedEnvelope

/-- Step 10. -/
def bodyHashOk (platform : Platform) (envelope : FedEnvelope) (body : Bytes) : Bool :=
  match envelope.bodyHash with
  | none => body.isEmpty
  | some expected => !body.isEmpty && expected = platform.sha256 body

/-- Steps 5 to 11: every check before the nonce. -/
def checkEnvelope (call : Call) (envelope : FedEnvelope)
    (payloadBytes signatureBytes : Bytes) : Except VerifyError Unit :=
  if call.mode = .knownPeer ∧ envelope.sender ∉ call.activePeers then
    .error .unknownSender
  else if !signatureOk verifier.platform payloadBytes signatureBytes envelope.sender then
    .error .signatureFailed
  else if envelope.receiver ≠ verifier.ourPubkey then
    .error .wrongReceiver
  else if envelope.method ≠ toAsciiUppercase call.method then
    .error .methodMismatch
  else if envelope.path ≠ call.path then
    .error .pathMismatch
  else if !bodyHashOk verifier.platform envelope call.body then
    .error .bodyHashMismatch
  else if maxClockSkewMs < max call.now envelope.createdAt - min call.now envelope.createdAt then
    .error .clockSkew
  else
    .ok ()

def verifyInbound (lru : NonceLru) (call : Call) : Except VerifyError FedEnvelope × NonceLru :=
  match readEnvelope verifier call.header with
  | .error error => (.error error, lru)
  | .ok (envelope, payloadBytes, signatureBytes) =>
    match checkEnvelope verifier call envelope payloadBytes signatureBytes with
    | .error error => (.error error, lru)
    | .ok () =>
      let (fresh, lru) := lru.checkAndInsert verifier.maxSize (envelope.sender, envelope.nonce)
      (if fresh then .ok envelope else .error .replay, lru)

def accepts (lru : NonceLru) (call : Call) : Bool :=
  (verifyInbound verifier lru call).1.isOk

/-- The state of the replay defence after a sequence of calls. -/
def lruAfter (lru : NonceLru) (calls : List Call) : NonceLru :=
  calls.foldl (fun lru call => (verifyInbound verifier lru call).2) lru

end

def acceptedCount (verifier : Verifier) : NonceLru → List Call → Nat
  | _, [] => 0
  | lru, call :: calls =>
    acceptedCount verifier (verifyInbound verifier lru call).2 calls + if accepts verifier lru call then 1 else 0

section

variable {verifier : Verifier} {lru : NonceLru} {call : Call} {calls : List Call} {log : List (Key × Uuid)}

theorem verifyInbound_cases (verifier : Verifier) (lru : NonceLru) (call : Call) :
    (accepts verifier lru call = false ∧ (verifyInbound verifier lru call).2 = lru) ∨
    ∃ envelope bytes, readEnvelope verifier call.header = .ok (envelope, bytes) ∧
      max call.now envelope.createdAt - min call.now envelope.createdAt ≤ maxClockSkewMs ∧
      accepts verifier lru call = (lru.checkAndInsert verifier.maxSize (envelope.sender, envelope.nonce)).1 ∧
      (verifyInbound verifier lru call).2 =
        (lru.checkAndInsert verifier.maxSize (envelope.sender, envelope.nonce)).2 := by
  unfold accepts verifyInbound
  split
  · exact .inl ⟨rfl, rfl⟩
  · rename_i envelope payloadBytes signatureBytes read
    split
    · exact .inl ⟨rfl, rfl⟩
    · rename_i checked
      refine .inr ⟨envelope, (payloadBytes, signatureBytes), read, ?_, ?_, rfl⟩
      · unfold checkEnvelope at checked
        repeat' split at checked
        all_goals first
          | exact Nat.le_of_not_lt (by assumption)
          | cases checked
      · dsimp only
        cases (lru.checkAndInsert verifier.maxSize (envelope.sender, envelope.nonce)).1 <;> rfl

theorem synced_verifyInbound (synced : lru.Synced verifier.maxSize) (call : Call) :
    (verifyInbound verifier lru call).2.Synced verifier.maxSize := by
  obtain ⟨-, same⟩ | ⟨envelope, -, -, -, -, next⟩ := verifyInbound_cases verifier lru call
  · rwa [same]
  · rw [next]
    exact synced.checkAndInsert _

theorem synced_lruAfter (synced : lru.Synced verifier.maxSize) (calls : List Call) :
    (lruAfter verifier lru calls).Synced verifier.maxSize := by
  induction calls generalizing lru with
  | nil => exact synced
  | cons call calls ih => exact ih (synced_verifyInbound synced call)

theorem logged_lruAfter (positive : verifier.maxSize ≠ 0) (logged : lru.order = log.rtake verifier.maxSize)
    (calls : List Call) : ∃ newer, (lruAfter verifier lru calls).order = (log ++ newer).rtake verifier.maxSize ∧
      newer.length = acceptedCount verifier lru calls := by
  induction calls generalizing lru log with
  | nil => exact ⟨[], by simpa [lruAfter] using logged, rfl⟩
  | cons call calls ih =>
    have unaccepted : (verifyInbound verifier lru call).2 = lru → accepts verifier lru call = false →
        ∃ newer, (lruAfter verifier lru (call :: calls)).order = (log ++ newer).rtake verifier.maxSize ∧
          newer.length = acceptedCount verifier lru (call :: calls) := by
      intro same refused
      obtain ⟨newer, order, length⟩ := ih logged
      refine ⟨newer, ?_, ?_⟩
      · rw [← order, lruAfter, lruAfter, List.foldl_cons, same]
      · rw [length, acceptedCount, same, refused]
        rfl
    obtain ⟨refused, same⟩ | ⟨envelope, -, -, -, accepted, next⟩ := verifyInbound_cases verifier lru call
    · exact unaccepted same refused
    · cases new : (lru.checkAndInsert verifier.maxSize (envelope.sender, envelope.nonce)).1 with
      | false => exact unaccepted (next.trans (RecentSet.checkAndInsert_known new)) (accepted.trans new)
      | true =>
        have grown : (verifyInbound verifier lru call).2.order =
            (log ++ [(envelope.sender, envelope.nonce)]).rtake verifier.maxSize := by
          rw [next]
          exact RecentSet.checkAndInsert_log positive logged new
        obtain ⟨newer, order, length⟩ := ih grown
        refine ⟨(envelope.sender, envelope.nonce) :: newer, ?_, ?_⟩
        · simpa [lruAfter] using order
        · rw [acceptedCount, accepted, new, ← length]
          rfl

end

/--
For every sequence of calls: the set and the queue of the replay defence hold the same nonces, each
once and no more than fit; and an envelope that is accepted twice was accepted at times no further
apart than twice the clock skew, while the defence was switched off or had taken in as many other
envelopes as it holds.
-/
theorem replay_needs_eviction (verifier : Verifier) (before between : List Call) (call again : Call) :
    (lruAfter verifier .empty before).Synced verifier.maxSize ∧
    (call.header = again.header → accepts verifier (lruAfter verifier .empty before) call = true →
      accepts verifier (lruAfter verifier .empty (before ++ call :: between)) again = true →
      (verifier.maxSize = 0 ∨ verifier.maxSize ≤
        acceptedCount verifier (lruAfter verifier .empty (before ++ [call])) between) ∧
      again.now ≤ call.now + 2 * maxClockSkewMs) := by
  have synced : ∀ calls, (lruAfter verifier .empty calls).Synced verifier.maxSize := synced_lruAfter .empty
  refine ⟨synced before, ?_⟩
  intro sameHeader first second
  obtain ⟨refused, -⟩ | ⟨envelope, bytes, read, inTime, accepted, next⟩ :=
    verifyInbound_cases verifier (lruAfter verifier .empty before) call
  · rw [first] at refused
    cases refused
  obtain ⟨refused, -⟩ | ⟨envelope', bytes', read', inTime', accepted', -⟩ :=
    verifyInbound_cases verifier (lruAfter verifier .empty (before ++ call :: between)) again
  · rw [second] at refused
    cases refused
  rw [sameHeader, read', Except.ok.injEq, Prod.mk.injEq] at read
  obtain ⟨rfl, -⟩ := read
  refine ⟨?_, by omega⟩
  by_cases positive : verifier.maxSize = 0
  · exact .inl positive
  · right
    -- the log before the first acceptance, then this nonce, then what came between
    obtain ⟨older, order, -⟩ := @logged_lruAfter verifier .empty [] positive (by simp [RecentSet.empty]) before
    have grown := RecentSet.checkAndInsert_log positive order (accepted.symm.trans first)
    have here : (lruAfter verifier .empty (before ++ [call])).order =
        (older ++ [(envelope'.sender, envelope'.nonce)]).rtake verifier.maxSize := by
      rw [lruAfter, List.foldl_append]
      exact (congrArg RecentSet.order next).trans grown
    obtain ⟨newer, order', length⟩ := logged_lruAfter positive here between
    have reached : lruAfter verifier (lruAfter verifier .empty (before ++ [call])) between =
        lruAfter verifier .empty (before ++ call :: between) := by
      simp [lruAfter]
    rw [reached, List.append_assoc] at order'
    rw [← length]
    exact (synced _).evicted positive order' (accepted'.symm.trans second)

/-- Two envelopes from two senders, both to this instance. -/
def twoEnvelopes : List SignedPayload :=
  [.fedEnvelope ⟨1, 9, "GET", "/", none, 0, 100⟩, .fedEnvelope ⟨2, 9, "GET", "/", none, 0, 200⟩]

/-- The headers `AA` and `AQ` are the bytes 0 and 1 in base64url. -/
def smallVerifier : Verifier where
  platform := Platform.ofTable twoEnvelopes
  base64UrlDecode header :=
    if header = [0x41, 0x41] then some [0] else if header = [0x41, 0x51] then some [1] else none
  ourPubkey := 9
  maxSize := 1

def smallCall (header : Bytes) : Call where
  activePeers := [1, 2]
  now := 0
  mode := .knownPeer
  method := "get"
  path := "/"
  body := []
  header := some header

/-- One other envelope is enough to have the first one accepted again. -/
theorem accepted_again : ∃ verifier before between call again, verifier.maxSize ≠ 0 ∧
    call.header = again.header ∧ accepts verifier (lruAfter verifier .empty before) call = true ∧
    accepts verifier (lruAfter verifier .empty (before ++ call :: between)) again = true ∧
    (∀ other ∈ before ++ call :: between ++ [again], other.now = 0) :=
  ⟨smallVerifier, [], [smallCall [0x41, 0x51]], smallCall [0x41, 0x41], smallCall [0x41, 0x41], by decide, rfl,
    by decide +kernel, by decide +kernel, by decide⟩

theorem small_defence_evicted : smallVerifier.maxSize ≤
    acceptedCount smallVerifier (lruAfter smallVerifier .empty [smallCall [0x41, 0x41]])
      [smallCall [0x41, 0x51]] := by
  have replayed := (replay_needs_eviction smallVerifier [] [smallCall [0x41, 0x51]] (smallCall [0x41, 0x41])
    (smallCall [0x41, 0x41])).2 rfl (by decide +kernel) (by decide +kernel)
  exact replayed.1.resolve_left (by decide)

end Prismoire.Envelope
