import Prismoire.EdgeWalk

namespace Prismoire

open Lib List Option Db

def SignedPayload.innerClass : SignedPayload → Option InnerClass
  | .postRevision _ => some .postRev
  | .retraction _ => some .retract
  | .trustEdge _ => some .trustEdge
  | .profileRevision _ => some .profile
  | .move _ => some .move
  | .adminRemoval _ => some .adminRm
  | .threadCreate _ => some .threadCreate
  | .userStatus _ => some .userStatus
  | .deactivation _ => some .deactivate
  | .threadStatus _ => some .threadStatus
  | .fedEnvelope _ => none
  | .registrationChallenge _ => none
  | .priorHomeChallenge _ => none
  | .priorHomeResponse _ => none
  | .report _ => none

/-- Bytes of a run that parse to an object and whose signature checks under some key. -/
structure Filed (platform : Platform) (corpus : Corpus) (payload signature : Bytes)
    (object : SignedPayload) : Prop where
  occurs : corpus payload
  parses : platform.parse payload = some object
  signed : ∃ key, signatureOk platform payload signature key = true

variable {platform : Platform} {payload signature : Bytes} {key : Key} {object : SignedPayload}

theorem signatureOk_binding (ok : signatureOk platform payload signature key = true)
    (parses : platform.parse payload = some object) :
    identityBinding object = none ∨ identityBinding object = some key := by
  simp only [signatureOk, Bool.and_eq_true] at ok
  cases run : verify platform payload signature key with
  | error e => simp [run, Except.isOk, Except.toBool] at ok
  | ok verified =>
    obtain ⟨-, parsed, bound⟩ := verify_ok run
    rw [parses, some.injEq] at parsed
    exact parsed ▸ bound

theorem Filed.signer {corpus : Corpus} (filed : Filed platform corpus payload signature object)
    (names : identityBinding object = some key) : signatureOk platform payload signature key = true := by
  obtain ⟨signer, ok⟩ := filed.signed
  rcases signatureOk_binding ok filed.parses with unbound | bound
  · rw [names] at unbound
    cases unbound
  · rw [names, some.injEq] at bound
    exact bound ▸ ok

/-- A buffered row whose bytes are a trust-edge of the run, under their own hash and predecessor. -/
structure BufferedFrom (platform : Platform) (corpus : Corpus) (row : PendingTrustEdgeRow) : Prop where
  hashed : row.canonicalHash = platform.sha256 row.payload
  filed : ∃ edge, Filed platform corpus row.payload row.signature (.trustEdge edge) ∧
    edge.priorEdgeHash = some row.priorEdgeHash

/-- The statements that trust-edge ingest runs, each with what the code has checked before it. -/
inductive EdgeEffect (state : AppState) (corpus : Corpus) : Db → Db → Prop
  | store {db payload signature edge} :
      Filed state.platform corpus payload signature (.trustEdge edge) →
      EdgeEffect state corpus db (db.storeSignedObject .trustEdge payload signature (state.platform.sha256 payload))
  | project {db payload signature edge} :
      Filed state.platform corpus payload signature (.trustEdge edge) →
      db.hasUser edge.fromKey = true → db.hasUser edge.toKey = true →
      db.edgeForked edge (state.platform.sha256 payload) = false →
      EdgeEffect state corpus db (withTrustEdge state db edge (state.platform.sha256 payload) signature payload)
  | erase {db after targeted authority} :
      (∀ hash, targeted hash = true → db.hasEdge hash = true) →
      db.erasePayloads targeted authority = .ok after → EdgeEffect state corpus db after
  | enqueue {db row} : BufferedFrom state.platform corpus row →
      EdgeEffect state corpus db { db with pendingTrustEdges := db.pendingTrustEdges ++ [row] }
  | dequeue {db} (source : Key) (prior : Hash) :
      EdgeEffect state corpus db (deletePendingOrphan db source prior)
  | frontier {db} (rows : List FrontierEdgeRow) :
      EdgeEffect state corpus db { db with frontierEdges := rows }

abbrev EdgeEffects (state : AppState) (corpus : Corpus) :=
  Relation.ReflTransGen (EdgeEffect state corpus)

def StoredFrom (platform : Platform) (corpus : Corpus) (row : SignedObjectRow) : Prop :=
  ∃ payload object, Filed platform corpus payload row.signature object ∧
    row.canonicalHash = platform.sha256 payload ∧ object.innerClass = some row.innerClass ∧
    (row.payload = none ∨ row.payload = some payload)

/-- What the tables of trust-edge ingest hold comes from the objects of the run. -/
structure EdgeSound (state : AppState) (corpus : Corpus) (db : Db) : Prop where
  objects : ∀ row ∈ db.signedObjects, StoredFrom state.platform corpus row
  buffered : ∀ row ∈ db.pendingTrustEdges, BufferedFrom state.platform corpus row
  edges : ∀ row ∈ db.trustEdges, ∃ payload signature edge,
    Filed state.platform corpus payload signature (.trustEdge edge) ∧
    row.canonicalHash = state.platform.sha256 payload ∧
    row.sourceUser = edge.fromKey ∧ row.targetUser = edge.toKey ∧ row.priorEdgeHash = edge.priorEdgeHash

variable {after db : Db} {corpus : Corpus} {state : AppState} {row : SignedObjectRow}

section Sound

variable {authority : Option Hash}

theorem StoredFrom.eraseRow (stored : StoredFrom state.platform corpus row) :
    StoredFrom state.platform corpus (eraseRow authority row) := by
  obtain ⟨payload, object, filed, hashed, cls, -⟩ := stored
  exact ⟨payload, object, filed, hashed, cls, .inl rfl⟩

section

variable (sound : ∀ row ∈ db.signedObjects, StoredFrom state.platform corpus row)
include sound

theorem storedFrom_storeSignedObject {payload signature : Bytes} {object : SignedPayload} {cls : InnerClass}
    (filed : Filed state.platform corpus payload signature object) (isClass : object.innerClass = some cls) :
    ∀ row ∈ (db.storeSignedObject cls payload signature (state.platform.sha256 payload)).signedObjects,
      StoredFrom state.platform corpus row := by
  intro row mem
  simp only [storeSignedObject] at mem
  split at mem
  · exact sound row mem
  · exact forall_mem_concat.mpr ⟨sound, ⟨payload, object, filed, rfl, isClass, .inr rfl⟩⟩ row mem

theorem storedFrom_erasePayloads {targeted : Hash → Bool}
    (run : db.erasePayloads targeted authority = .ok after) :
    ∀ row ∈ after.signedObjects, StoredFrom state.platform corpus row := by
  simp only [erasePayloads, require_bind_ok] at run
  obtain ⟨-, run⟩ := run
  cases run
  exact forall_mem_updateWhere sound fun _ stored => stored.eraseRow

end

theorem EdgeEffect.sound (effect : EdgeEffect state corpus db after) (sound : EdgeSound state corpus db) :
    EdgeSound state corpus after := by
  cases effect with
  | store filed =>
    exact ⟨storedFrom_storeSignedObject sound.objects filed rfl, sound.buffered, sound.edges⟩
  | @project payload signature edge filed sourceKnown targetKnown unforked =>
    refine ⟨sound.objects, sound.buffered, ?_⟩
    exact forall_mem_append.mpr
      ⟨sound.edges, forall_mem_singleton.mpr ⟨payload, signature, edge, filed, rfl, rfl, rfl, rfl⟩⟩
  | erase projected run =>
    refine ⟨storedFrom_erasePayloads sound.objects run, ?_, ?_⟩
    · rw [erasePayloads_frame run]
      exact sound.buffered
    · rw [erasePayloads_frame run]
      exact sound.edges
  | enqueue new =>
    refine ⟨sound.objects, ?_, sound.edges⟩
    exact forall_mem_append.mpr ⟨sound.buffered, forall_mem_singleton.mpr new⟩
  | dequeue source prior =>
    refine ⟨sound.objects, ?_, sound.edges⟩
    intro row mem
    exact sound.buffered row (mem_of_mem_filter mem)
  | frontier rows => exact ⟨sound.objects, sound.buffered, sound.edges⟩

theorem EdgeEffects.sound (effects : EdgeEffects state corpus db after)
    (sound : EdgeSound state corpus db) : EdgeSound state corpus after := by
  induction effects with
  | refl => exact sound
  | tail _ step ih => exact step.sound ih

section

variable (effect : EdgeEffect state corpus db after)
include effect

theorem EdgeEffect.edge_stays {row : TrustEdgeRow} (mem : row ∈ db.trustEdges) : row ∈ after.trustEdges := by
  cases effect with
  | store => exact mem
  | project => exact mem_append_left _ mem
  | erase projected run => rwa [erasePayloads_frame run]
  | enqueue => exact mem
  | dequeue => exact mem
  | frontier => exact mem

theorem EdgeEffect.object_stays {hash : Hash} (known : db.hasObject hash = true) : after.hasObject hash = true := by
  cases effect with
  | store => exact hasObject_storeSignedObject.mpr (.inr known)
  | project => exact known
  | erase projected run => rwa [hasObject_erasePayloads run]
  | enqueue => exact known
  | dequeue => exact known
  | frontier => exact known

/-- Of two projected edges on one pair with one predecessor, both are the same edge. -/
def OneSuccessor (db : Db) : Prop :=
  ∀ row ∈ db.trustEdges, ∀ other ∈ db.trustEdges, row.sourceUser = other.sourceUser →
    row.targetUser = other.targetUser → row.priorEdgeHash = other.priorEdgeHash →
    row.canonicalHash = other.canonicalHash

theorem EdgeEffect.oneSuccessor (one : OneSuccessor db) : OneSuccessor after := by
  cases effect with
  | store => exact one
  | @project payload signature edge filed sourceKnown targetKnown unforked =>
    have alone : ∀ row ∈ db.trustEdges, row.sourceUser = edge.fromKey → row.targetUser = edge.toKey →
        row.priorEdgeHash = edge.priorEdgeHash → row.canonicalHash = state.platform.sha256 payload := by
      simpa [edgeForked] using unforked
    intro row mem other mem' sameSource sameTarget samePrior
    rcases mem_concat.mp mem with old | rfl <;> rcases mem_concat.mp mem' with old' | rfl
    · exact one row old other old' sameSource sameTarget samePrior
    · exact alone row old sameSource sameTarget samePrior
    · exact (alone other old' sameSource.symm sameTarget.symm samePrior.symm).symm
    · rfl
  | erase projected run =>
    rw [erasePayloads_frame run]
    exact one
  | enqueue => exact one
  | dequeue => exact one
  | frontier => exact one

end

theorem EdgeEffects.edge_stays (effects : EdgeEffects state corpus db after) {row : TrustEdgeRow}
    (mem : row ∈ db.trustEdges) : row ∈ after.trustEdges := by
  induction effects with
  | refl => exact mem
  | tail _ step ih => exact step.edge_stays ih

theorem EdgeEffects.oneSuccessor (effects : EdgeEffects state corpus db after) (one : OneSuccessor db) :
    OneSuccessor after := by
  induction effects with
  | refl => exact one
  | tail _ step ih => exact step.oneSuccessor ih

end Sound

variable {start : Db}

theorem EdgeEffects.walk (sound : EdgeSound state corpus start) : EdgeArrival state (fun payload signature hash edge =>
      Filed state.platform corpus payload signature (.trustEdge edge) ∧ hash = state.platform.sha256 payload)
    (EdgeEffects state corpus start) where
  buffered effects mem parses := by
    obtain ⟨hashed, edge, filed, -⟩ := (effects.sound sound).buffered _ mem
    cases filed.parses.symm.trans parses
    exact ⟨filed, hashed⟩
  project := by
    rintro db payload signature _ edge effects ⟨filed, rfl⟩ source target unforked -
    exact effects.tail (.project filed source target unforked)
  erase effects targeted run := effects.tail (.erase targeted run)
  store := by
    rintro db payload signature _ edge effects ⟨filed, rfl⟩
    exact effects.tail (.store filed)
  enqueue := by
    rintro db payload signature _ edge prior effects ⟨filed, rfl⟩ linked
    exact effects.tail (.enqueue ⟨rfl, edge, filed, linked⟩)
  dequeue source prior effects := effects.tail (.dequeue source prior)
  frontier rows effects := effects.tail (.frontier rows)

variable (sound : EdgeSound state corpus db)
include sound

theorem drainLoop_effects {fuel : Nat} {worklist : List Hash}
    (run : drainLoop state fuel worklist db = .ok after) : EdgeEffects state corpus db after :=
  (EdgeEffects.walk sound).toEdgeWalk.drainLoop .refl run

theorem filed_of_stored {payload : Bytes} {edge : TrustEdge} (stored : row ∈ db.signedObjects)
    (live : row.payload = some payload) (parses : state.platform.parse payload = some (.trustEdge edge)) :
    Filed state.platform corpus payload row.signature (.trustEdge edge) ∧
      row.canonicalHash = state.platform.sha256 payload := by
  obtain ⟨payload', object, filed, hashed, -, kept⟩ := sound.objects row stored
  obtain rfl : payload' = payload := by simpa [live, eq_comm] using kept
  obtain rfl : object = .trustEdge edge := by simpa [filed.parses] using parses
  exact ⟨filed, hashed⟩

theorem sweepPendingProjections_effects {userKey : Key} {flag : Bool}
    (run : sweepPendingProjections state db userKey = .ok (after, flag)) :
    EdgeEffects state corpus db after := by
  refine (EdgeEffects.walk sound).toEdgeWalk.sweep .refl ?_ run
  intro candidate mem
  obtain ⟨⟨row, stored, -, live, sameSignature, sameHash⟩, parses, -⟩ := mem_sweepCandidates mem
  exact sameSignature ▸ sameHash ▸ filed_of_stored sound stored live parses

theorem deliverEdge_effects {wire : Bytes} {peer : Key}
    (occurs : ∀ payload signature, state.platform.decodeSignedObject wire = some (payload, signature) →
      corpus payload) : EdgeEffects state corpus db (deliverEdge state db wire peer) := by
  refine (EdgeEffects.walk sound).deliver .refl ?_
  rintro payload signature hash edge ⟨-, parses, ⟨row, stored, live, rfl, rfl⟩ | ⟨rfl, decodes, ok⟩⟩
  · exact filed_of_stored sound stored live parses
  · exact ⟨⟨occurs payload signature decodes, parses, _, ok⟩, rfl⟩

end Prismoire
