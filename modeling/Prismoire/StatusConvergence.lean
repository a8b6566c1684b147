import Prismoire.ErasureAuthority
import Prismoire.Lib.Register
import Prismoire.MoveHistory
import Prismoire.Status

namespace Prismoire

open Lib List Option

section Rows

variable {ρ κ : Type} [DecidableEq κ] {key : ρ → κ} {rows : List ρ} {row : ρ}

theorem find?_upsertBy : (upsertBy key rows row).find? (key · = key row) = some row := by
  rw [upsertBy]
  split
  · rename_i present
    rw [find?_updateWhere]
    · obtain ⟨old, found⟩ := isSome_iff_exists.mp (find?_isSome.mpr (any_eq_true.mp present))
      have named := find?_some found
      rw [found, map_some, if_pos named]
    · simp
  · rename_i absent
    rw [find?_append, find?_eq_none.mpr]
    · simp
    · intro old mem named
      exact absent (any_eq_true.mpr ⟨old, mem, named⟩)

end Rows

section

variable {ι σ ρ : Type} {cls : StatusClass ι σ ρ} {platform : Platform} {host : Host} {s : StatusDb}

/-- What the shared state machine relies on in a class. -/
structure StatusClass.Lawful (cls : StatusClass ι σ ρ) : Prop where
  homeStore : ∀ host db payload signature hash status,
    cls.home host (db.storeSignedObject cls.innerClass payload signature hash) status = cls.home host db status
  rowStore : ∀ s db subject, cls.row { s with db := db } subject = cls.row s subject
  homeUpsert : ∀ host hash status s other, cls.home host (cls.upsert hash status s).db other = cls.home host s.db other
  upsertObjects : ∀ hash status s, (cls.upsert hash status s).db.signedObjects = s.db.signedObjects
  upsertPeers : ∀ hash status s, (cls.upsert hash status s).db.peers = s.db.peers
  rowUpsert : ∀ hash status s, cls.row (cls.upsert hash status s) (cls.subject status) = some (cls.rowOf hash status)
  headOf : ∀ hash status, cls.head (cls.rowOf hash status) = (asI64 (cls.createdAt status), hash)

namespace StatusClass

def readTime (cls : StatusClass ι σ ρ) (status : σ) : Nat :=
  (asI64 (cls.createdAt status)).toNat

/-- Later is higher; among equal times the smaller hash. -/
def rank (cls : StatusClass ι σ ρ) (item : Hash × σ) : Latest ℕ :=
  latest (cls.readTime item.2) item.1.toNat

def rowOfItem (cls : StatusClass ι σ ρ) (item : Hash × σ) : ρ :=
  cls.rowOf item.1 item.2

theorem readTime_of_lt {status : σ} (small : cls.createdAt status < 2 ^ 63) :
    cls.readTime status = cls.createdAt status := by
  rw [readTime, asI64, Nat.mod_eq_of_lt (by omega), if_pos small, Int.toNat_natCast]

theorem readTime_lt (status : σ) : cls.readTime status < 2 ^ 63 := by
  rw [readTime, asI64]
  split
  · rename_i low
    rwa [Int.toNat_natCast]
  · have := Nat.mod_lt (cls.createdAt status) (show 0 < 2 ^ 64 by decide)
    omega

end StatusClass

theorem statusWins_of_large (lawful : cls.Lawful) (held : Hash × σ) {createdAt : Nat} (large : 2 ^ 63 ≤ createdAt)
    (hash : Hash) : statusWins (some (cls.head (cls.rowOfItem held))) createdAt hash = true := by
  have later : cls.readTime held.2 < createdAt := (cls.readTime_lt held.2).trans_le large
  rw [StatusClass.rowOfItem, lawful.headOf, statusWins]
  exact if_pos later

theorem statusWins_rank (lawful : cls.Lawful) (held new : Hash × σ) (small : cls.createdAt new.2 < 2 ^ 63) :
    statusWins (some (cls.head (cls.rowOfItem held))) (cls.createdAt new.2) new.1 =
      decide (cls.rank held < cls.rank new) := by
  rw [StatusClass.rowOfItem, lawful.headOf, statusWins, StatusClass.rank, StatusClass.rank, Bool.eq_iff_iff,
    decide_eq_true_eq, latest_lt, StatusClass.readTime_of_lt small, ← StatusClass.readTime]
  split
  · rename_i later
    simp [later]
  · split
    · rename_i notLater earlier
      simp only [Bool.false_eq_true, false_iff]
      omega
    · rename_i notLater notEarlier
      have same : cls.readTime held.2 = cls.createdAt new.2 := by omega
      simp [same, BitVec.lt_def]

structure StatusObject (cls : StatusClass ι σ ρ) (platform : Platform) where
  wire : Bytes
  payload : Bytes
  signature : Bytes
  status : σ
  decodes : platform.decodeSignedObject wire = some (payload, signature)
  parses : (platform.parse payload).bind cls.select = some status

namespace StatusObject

variable (o : StatusObject cls platform)

def hash : Hash :=
  platform.sha256 o.payload

def item : Hash × σ :=
  (o.hash, o.status)

def Authorised (host : Host) (db : Db) : Prop :=
  ∃ home, cls.home host db o.status = .ok home ∧ signatureOk platform o.payload o.signature home = true ∧
    (resolveDomainForKey host db home).any (· ≠ cls.signingInstance o.status) = false ∧
    cls.signingInstance o.status ≠ ""

def answer (host : Host) (s : StatusDb) : Option StatusAnswer :=
  (applyOneStatus cls host s o.wire).toOption.map Prod.fst

/-- The answer to a delivery asks for the predecessor first. -/
def Deferred (host : Host) (s : StatusDb) : Prop :=
  o.answer host s = some .deferred

def stored (host : Host) (s : StatusDb) : StatusDb :=
  let after := storeStatus cls host s o.payload o.signature
  if statusWins ((cls.row s (cls.subject o.status)).map cls.head) (cls.createdAt o.status) o.hash then
    cls.upsert o.hash o.status after
  else
    after

end StatusObject

def deliverAll (host : Host) (s : StatusDb) (deliveries : List (StatusObject cls platform)) : StatusDb :=
  deliveries.foldl (fun s o => deliverStatus cls host s o.wire) s

theorem deliverAll_append {earlier later : List (StatusObject cls platform)} :
    deliverAll host s (earlier ++ later) = deliverAll host (deliverAll host s earlier) later :=
  foldl_append

variable {o : StatusObject cls platform}

theorem applyOneStatus_authorised (on : host.platform = platform) (authorised : o.Authorised host s.db) :
    (s.db.hasObject o.hash = true ∧ ¬ o.Deferred host s ∧ deliverStatus cls host s o.wire = s) ∨
    (s.db.hasObject o.hash = false ∧ grounded cls s.db o.status = false ∧ o.Deferred host s ∧
      deliverStatus cls host s o.wire = s) ∨
    (s.db.hasObject o.hash = false ∧ grounded cls s.db o.status = true ∧ ¬ o.Deferred host s ∧
      deliverStatus cls host s o.wire = o.stored host s) := by
  subst on
  obtain ⟨home, resolved, signed, label, named⟩ := authorised
  have admitted : admitStatus cls host s.db o.payload o.signature =
      if grounded cls s.db o.status then .ok o.status else .error .deferred := by
    simp only [admitStatus, o.parses, elim_some, resolved, bind, Except.bind, signed, label]
    cases grounded cls s.db o.status <;> rfl
  unfold StatusObject.Deferred StatusObject.answer deliverStatus
  cases found : s.db.signedObjects.find? (·.canonicalHash = o.hash) with
  | some row =>
    left
    have same : row.canonicalHash = o.hash := by simpa using find?_some found
    have answer : applyOneStatus cls host s o.wire =
        .ok (if row.payload.isNone then .rejected .schemaInvalid else .duplicate, s) := by
      unfold applyOneStatus
      rw [o.decodes]
      dsimp only
      rw [← StatusObject.hash, found]
    refine ⟨any_eq_true.mpr ⟨row, mem_of_find?_eq_some found, by simp [same]⟩, ?_, ?_⟩
    · rw [answer]
      split <;> simp [Except.toOption]
    · rw [answer]
  | none =>
    right
    have absent : s.db.hasObject o.hash = false := by
      rw [Db.hasObject, List.any_eq_false]
      intro row mem
      exact find?_eq_none.mp found row mem
    cases isGrounded : grounded cls s.db o.status with
    | false =>
      have answer : applyOneStatus cls host s o.wire = .ok (.deferred, s) := by
        unfold applyOneStatus
        rw [o.decodes]
        dsimp only
        rw [← StatusObject.hash, found, admitted, isGrounded]
        rfl
      exact .inl ⟨absent, rfl, by rw [answer]; rfl, by rw [answer]⟩
    | true =>
      have answer : applyOneStatus cls host s o.wire = .ok (
          if statusWins ((cls.row s (cls.subject o.status)).map cls.head) (cls.createdAt o.status) o.hash then .applied
          else .superseded, o.stored host s) := by
        unfold applyOneStatus
        rw [o.decodes]
        dsimp only
        rw [← StatusObject.hash, found, admitted, isGrounded, StatusObject.stored]
        simp only [if_true]
        cases statusWins ((cls.row s (cls.subject o.status)).map cls.head) (cls.createdAt o.status) o.hash with
        | true =>
          simp only [if_true, require, decide_eq_true named]
          rfl
        | false => rfl
      refine .inr ⟨absent, rfl, ?_, by rw [answer]⟩
      rw [answer]
      split <;> simp [Except.toOption]

theorem StatusObject.stored_objects (lawful : cls.Lawful) : (o.stored host s).db.signedObjects =
    (s.db.storeSignedObject cls.innerClass o.payload o.signature (host.platform.sha256 o.payload)).signedObjects := by
  unfold StatusObject.stored
  split
  · rw [lawful.upsertObjects]
    rfl
  · rfl

theorem StatusObject.hasObject_stored (on : host.platform = platform) (lawful : cls.Lawful) {hash : Hash} :
    (o.stored host s).db.hasObject hash = true ↔ hash = o.hash ∨ s.db.hasObject hash = true := by
  rw [Db.hasObject, o.stored_objects lawful, ← Db.hasObject, Db.hasObject_storeSignedObject, on]
  rfl

theorem StatusObject.Authorised.stored (lawful : cls.Lawful) {new : StatusObject cls platform}
    (authorised : o.Authorised host s.db) : o.Authorised host (new.stored host s).db := by
  obtain ⟨home, resolved, signed, label, named⟩ := authorised
  have kept : cls.home host (storeStatus cls host s new.payload new.signature).db o.status = .ok home :=
    (lawful.homeStore _ _ _ _ _ _).trans resolved
  refine ⟨home, ?_, signed, ?_, named⟩
  · unfold StatusObject.stored
    split
    · rw [lawful.homeUpsert]
      exact kept
    · exact kept
  · have peers : (new.stored host s).db.peers = s.db.peers := by
      unfold StatusObject.stored
      split
      · rw [lawful.upsertPeers]
        rfl
      · rfl
    rw [resolveDomainForKey, peers]
    exact label

/-- The items that a row is chosen from: one past the sign bit displaces all that came before. -/
def StatusClass.contend (cls : StatusClass ι σ ρ) (held : List (Hash × σ)) (new : Hash × σ) : List (Hash × σ) :=
  if cls.createdAt new.2 < 2 ^ 63 then held ++ [new] else [new]

theorem row_stored (lawful : cls.Lawful) {held : List (Hash × σ)}
    (row : cls.row s (cls.subject o.status) = (offers cls.rank held).map cls.rowOfItem) :
    cls.row (o.stored host s) (cls.subject o.status) =
      (offers cls.rank (cls.contend held o.item)).map cls.rowOfItem := by
  have upserted := lawful.rowUpsert o.hash o.status (storeStatus cls host s o.payload o.signature)
  have kept : cls.row (storeStatus cls host s o.payload o.signature) (cls.subject o.status) =
      cls.row s (cls.subject o.status) := lawful.rowStore _ _ _
  rw [StatusObject.stored, row, StatusClass.contend]
  cases current : offers cls.rank held with
  | none =>
    have won : (if cls.createdAt o.item.2 < 2 ^ 63 then held ++ [o.item] else [o.item]) = [o.item] := by
      obtain ⟨rfl, -⟩ | ⟨best, isSome, -⟩ := offers_cases cls.rank held
      · simp
      · rw [current] at isSome
        cases isSome
    rw [won, map_none, map_none, statusWins]
    exact upserted
  | some best =>
    rw [map_some, map_some]
    by_cases small : cls.createdAt o.item.2 < 2 ^ 63
    · have wins := statusWins_rank lawful best o.item small
      rw [if_pos small, offers_concat, current, keepHighest]
      by_cases outranked : cls.rank best < cls.rank o.item
      · rw [decide_eq_true outranked] at wins
        rw [if_pos outranked, if_pos (by exact wins)]
        exact upserted
      · rw [decide_eq_false outranked] at wins
        rw [if_neg outranked, if_neg (by rw [Bool.not_eq_true]; exact wins), kept, row, current]
    · have wins := statusWins_of_large lawful best (Nat.le_of_not_lt small) o.hash
      rw [if_neg small, if_pos (by exact wins)]
      exact upserted

structure StatusesOf (subject : ι) (statuses : List (StatusObject cls platform)) : Prop where
  about : ∀ o ∈ statuses, cls.subject o.status = subject
  apart : ∀ a ∈ statuses, ∀ b ∈ statuses, a.hash = b.hash → a.payload = b.payload

theorem StatusesOf.item_eq {subject : ι} {statuses : List (StatusObject cls platform)}
    (of : StatusesOf subject statuses) {a b : StatusObject cls platform} (inA : a ∈ statuses) (inB : b ∈ statuses)
    (same : a.hash = b.hash) : a.item = b.item := by
  have parsed := a.parses
  rw [of.apart a inA b inB same, b.parses, some.injEq] at parsed
  exact Prod.ext same parsed.symm

/-- An instance where the subject's row is that of the best among the stored statuses. -/
structure TracksStatus (host : Host) (subject : ι) (statuses : List (StatusObject cls platform)) (s : StatusDb) : Prop where
  authorised : ∀ o ∈ statuses, o.Authorised host s.db
  row : ∃ held, (∀ item, item ∈ held ↔ ∃ o ∈ statuses, o.item = item ∧ s.db.hasObject o.hash = true) ∧
    cls.row s subject = (offers cls.rank held).map cls.rowOfItem

variable {subject : ι} {statuses deliveries : List (StatusObject cls platform)}

section

variable (on : host.platform = platform) (lawful : cls.Lawful)
include on lawful

section

variable (of : StatusesOf subject statuses) (small : ∀ o ∈ statuses, cls.createdAt o.status < 2 ^ 63)
include of small

theorem TracksStatus.deliver (tracks : TracksStatus host subject statuses s)
    (mem : o ∈ statuses) : TracksStatus host subject statuses (deliverStatus cls host s o.wire) := by
  obtain ⟨-, -, same⟩ | ⟨-, -, -, same⟩ | ⟨absent, -, -, after⟩ :=
    applyOneStatus_authorised on (tracks.authorised o mem)
  · rwa [same]
  · rwa [same]
  rw [after]
  refine ⟨fun other inSet => (tracks.authorised other inSet).stored lawful, ?_⟩
  obtain ⟨held, holds, row⟩ := tracks.row
  refine ⟨held ++ [o.item], fun item => ?_, ?_⟩
  · rw [mem_append, holds, mem_singleton]
    constructor
    · rintro (⟨other, inSet, isItem, known⟩ | rfl)
      · exact ⟨other, inSet, isItem, (o.hasObject_stored on lawful).mpr (.inr known)⟩
      · exact ⟨o, mem, rfl, (o.hasObject_stored on lawful).mpr (.inl rfl)⟩
    · rintro ⟨other, inSet, rfl, known⟩
      rcases (o.hasObject_stored on lawful).mp known with sameHash | old
      · exact .inr (of.item_eq inSet mem sameHash)
      · exact .inl ⟨other, inSet, rfl, old⟩
  · have about := of.about o mem
    subst about
    rw [row_stored lawful row, StatusClass.contend, if_pos (show cls.createdAt o.item.2 < 2 ^ 63 from small o mem)]

theorem TracksStatus.deliverAll (tracks : TracksStatus host subject statuses s)
    (members : ∀ o ∈ deliveries, o ∈ statuses) : TracksStatus host subject statuses (deliverAll host s deliveries) := by
  induction deliveries generalizing s with
  | nil => exact tracks
  | cons o rest ih =>
    exact ih (tracks.deliver on lawful of small (members o (by simp)))
      fun other inRest => members other (mem_cons_of_mem _ inRest)

theorem TracksStatus.invariant {Inv : StatusDb → Prop}
    (store : ∀ s payload signature, Inv s → Inv (storeStatus cls host s payload signature))
    (upsert : ∀ s hash status, cls.subject status = subject → Inv s → Inv (cls.upsert hash status s))
    (tracks : TracksStatus host subject statuses s) (members : ∀ o ∈ deliveries, o ∈ statuses) (holds : Inv s) :
    Inv (Prismoire.deliverAll host s deliveries) := by
  induction deliveries generalizing s with
  | nil => exact holds
  | cons o rest ih =>
    have mem := members o (by simp)
    have next : Inv (deliverStatus cls host s o.wire) := by
      obtain ⟨-, -, same⟩ | ⟨-, -, -, same⟩ | ⟨-, -, -, after⟩ :=
        applyOneStatus_authorised on (tracks.authorised o mem)
      · rwa [same]
      · rwa [same]
      · rw [after, StatusObject.stored]
        split
        · exact upsert _ _ _ (of.about o mem) (store _ _ _ holds)
        · exact store _ _ _ holds
    exact ih (tracks.deliver on lawful of small mem)
      (fun other inRest => members other (mem_cons_of_mem _ inRest)) next

theorem TracksStatus.hasObject (tracks : TracksStatus host subject statuses s)
    (members : ∀ o ∈ deliveries, o ∈ statuses) {hash : Hash} (known : s.db.hasObject hash = true) :
    (Prismoire.deliverAll host s deliveries).db.hasObject hash = true := by
  refine @TracksStatus.invariant _ _ _ cls platform host s subject statuses deliveries on lawful of small
    (·.db.hasObject hash = true) (fun s payload signature old => ?_) (fun s _ _ _ old => ?_) tracks members known
  · exact Db.hasObject_storeSignedObject.mpr (.inr old)
  · rw [Db.hasObject, lawful.upsertObjects]
    exact old

end

theorem hasObject_of_not_deferred (authorised : o.Authorised host s.db) (answered : ¬ o.Deferred host s) :
    (deliverStatus cls host s o.wire).db.hasObject o.hash = true := by
  obtain ⟨known, -, same⟩ | ⟨-, -, deferred, -⟩ | ⟨-, -, -, after⟩ := applyOneStatus_authorised on authorised
  · rwa [same]
  · exact absurd deferred answered
  · rw [after]
    exact (o.hasObject_stored on lawful).mpr (.inl rfl)

end

/-- Deliveries to an instance that starts without the statuses, redelivered until none is deferred. -/
structure Settles (host : Host) (s : StatusDb) (subject : ι) (statuses deliveries : List (StatusObject cls platform)) :
    Prop where
  on : host.platform = platform
  authorised : ∀ o ∈ statuses, o.Authorised host s.db
  fresh : ∀ o ∈ statuses, s.db.hasObject o.hash = false
  noRow : cls.row s subject = none
  members : ∀ o ∈ deliveries, o ∈ statuses
  answered : ∀ o ∈ statuses, ∃ earlier later, deliveries = earlier ++ o :: later ∧
    ¬ o.Deferred host (deliverAll host s earlier)

theorem Settles.tracks (settles : Settles host s subject statuses deliveries) : TracksStatus host subject statuses s := by
  refine ⟨settles.authorised, [], fun item => ?_, settles.noRow⟩
  constructor
  · nofun
  · rintro ⟨o, mem, -, known⟩
    rw [settles.fresh o mem] at known
    cases known

theorem Settles.hasObject (settles : Settles host s subject statuses deliveries) (lawful : cls.Lawful)
    (of : StatusesOf subject statuses) (small : ∀ o ∈ statuses, cls.createdAt o.status < 2 ^ 63)
    (mem : o ∈ statuses) : (deliverAll host s deliveries).db.hasObject o.hash = true := by
  obtain ⟨earlier, later, rfl, answered⟩ := settles.answered o mem
  have tracks := settles.tracks.deliverAll settles.on lawful of small
    fun other inEarlier => settles.members other (mem_append_left _ inEarlier)
  have known := hasObject_of_not_deferred settles.on lawful (tracks.authorised o mem) answered
  have next := tracks.deliver settles.on lawful of small mem
  have rest : ∀ other ∈ later, other ∈ statuses := fun other inLater => settles.members other (by simp [inLater])
  rw [deliverAll_append]
  exact next.hasObject settles.on lawful of small rest known

/-- The status with the greatest time and, among equal times, the smallest hash. -/
structure Winner (statuses : List (StatusObject cls platform)) (winner : StatusObject cls platform) : Prop where
  member : winner ∈ statuses
  first : ∀ o ∈ statuses, cls.createdAt o.status < cls.createdAt winner.status ∨
    (cls.createdAt o.status = cls.createdAt winner.status ∧ winner.hash.toNat ≤ o.hash.toNat)

theorem rank_le (small : ∀ o ∈ statuses, cls.createdAt o.status < 2 ^ 63) {winner : StatusObject cls platform}
    (inSet : winner ∈ statuses) (mem : o ∈ statuses) : cls.rank o.item ≤ cls.rank winner.item ↔
      cls.createdAt o.status < cls.createdAt winner.status ∨
      (cls.createdAt o.status = cls.createdAt winner.status ∧ winner.hash.toNat ≤ o.hash.toNat) := by
  rw [← not_lt, StatusClass.rank, StatusClass.rank, latest_lt]
  dsimp only [StatusObject.item]
  rw [StatusClass.readTime_of_lt (small o mem), StatusClass.readTime_of_lt (small winner inSet)]
  omega

theorem Settles.row (settles : Settles host s subject statuses deliveries) (lawful : cls.Lawful)
    (of : StatusesOf subject statuses) (small : ∀ o ∈ statuses, cls.createdAt o.status < 2 ^ 63)
    {winner : StatusObject cls platform} (wins : Winner statuses winner) :
    cls.row (deliverAll host s deliveries) subject = some (cls.rowOf winner.hash winner.status) := by
  have tracks := settles.tracks.deliverAll settles.on lawful of small settles.members
  obtain ⟨held, holds, row⟩ := tracks.row
  have best : Best cls.rank (statuses.map StatusObject.item) winner.item := by
    refine ⟨mem_map_of_mem wins.member, fun item inItems => ?_⟩
    obtain ⟨o, mem, rfl⟩ := mem_map.mp inItems
    exact (rank_le small wins.member mem).mpr (wins.first o mem)
  have distinct : ∀ a ∈ statuses.map StatusObject.item, ∀ b ∈ statuses.map StatusObject.item,
      cls.rank a = cls.rank b → a = b := by
    intro a inA b inB same
    obtain ⟨a, memberA, rfl⟩ := mem_map.mp inA
    obtain ⟨b, memberB, rfl⟩ := mem_map.mp inB
    exact of.item_eq memberA memberB (BitVec.eq_of_toNat_eq (latest_inj same).2)
  have all : ∀ item, item ∈ held ↔ item ∈ statuses.map StatusObject.item := by
    intro item
    rw [holds, List.mem_map]
    constructor
    · rintro ⟨o, mem, isItem, -⟩
      exact ⟨o, mem, isItem⟩
    · rintro ⟨o, mem, isItem⟩
      exact ⟨o, mem, isItem, settles.hasObject lawful of small mem⟩
  rw [row, best.held distinct all]
  rfl

end

theorem userStatusClass_lawful : userStatusClass.Lawful where
  homeStore host db payload signature hash status := by
    have resolved : ∀ t arrivedFrom, resolveHomeAtT host.toAppState
        (db.storeSignedObject .userStatus payload signature hash) status.subject t arrivedFrom =
        resolveHomeAtT host.toAppState db status.subject t arrivedFrom := by
      intro t arrivedFrom
      simp only [resolveHomeAtT, fetchMove_store (show InnerClass.userStatus ≠ .move by nofun)]
      rfl
    simp only [userStatusClass, resolveSubjectHomeAtT, resolved]
    rfl
  rowStore _ _ _ := rfl
  homeUpsert _ _ _ _ _ := rfl
  upsertObjects _ _ _ := rfl
  upsertPeers _ _ _ := rfl
  rowUpsert hash status s := @find?_upsertBy _ _ _ UserStatusRow.subject s.userStatuses (userStatusRow hash status)
  headOf _ _ := rfl

theorem joinedThread_setLocked {db : Db} {threadId : Uuid} {locked : Bool} (other : Uuid) :
    (joinedThread (setLocked db threadId locked) other).map (·.homeInstance) =
      (joinedThread db other).map (·.homeInstance) := by
  unfold joinedThread setLocked
  rw [find?_updateWhere]
  · rw [Option.map_map]
    congr 1
    funext row
    dsimp only [Function.comp_apply]
    split <;> rfl
  · intro row _
    rfl

theorem threadStatusClass_lawful (mirrors : Bool) : (threadStatusClass mirrors).Lawful where
  homeStore _ _ _ _ _ _ := rfl
  rowStore _ _ _ := rfl
  homeUpsert host hash status s other := by
    have homes := @joinedThread_setLocked s.db status.threadId (status.status = .locked) other.threadId
    cases mirrors with
    | false => rfl
    | true =>
      dsimp only [threadStatusClass]
      rw [if_pos rfl]
      cases old : joinedThread s.db other.threadId <;>
        cases new : joinedThread (setLocked s.db status.threadId (status.status = .locked)) other.threadId <;>
        rw [old, new] at homes <;> simp_all
  upsertObjects _ _ _ := by cases mirrors <;> rfl
  upsertPeers _ _ _ := by cases mirrors <;> rfl
  rowUpsert hash status s := @find?_upsertBy _ _ _ ThreadStatusRow.threadId s.threadStatuses (threadStatusRow hash status)
  headOf _ _ := rfl

def LockMirrored (threadId : Uuid) (s : StatusDb) : Prop :=
  ∀ row, s.threadStatuses.find? (·.threadId = threadId) = some row →
    ∀ thread ∈ s.db.threads, thread.id = threadId → thread.locked = decide (row.status = .locked)

theorem LockMirrored.upsert {threadId : Uuid} {s : StatusDb} {hash : Hash} {status : ThreadStatus}
    (about : status.threadId = threadId) : LockMirrored threadId ((threadStatusClass true).upsert hash status s) := by
  subst about
  intro row found thread mem isThread
  have isRow : row = threadStatusRow hash status := by
    have upserted := (threadStatusClass_lawful true).rowUpsert hash status s
    exact some.inj (found.symm.trans upserted)
  subst isRow
  obtain ⟨old, -, ⟨-, rfl⟩ | ⟨other, rfl⟩⟩ := mem_updateWhere.mp mem
  · rfl
  · simp [isThread] at other

def wardTable : List SignedPayload :=
  [.userStatus ⟨1, .banned, none, "home", none, 1000, none⟩, .userStatus ⟨1, .active, none, "home", none, 2000, some 1⟩,
    .threadStatus ⟨5, .locked, "home", none, 1000, none⟩, .threadStatus ⟨5, .open, "home", none, 2000, some 3⟩,
    .userStatus ⟨1, .banned, none, "home", none, 2 ^ 63, none⟩, .userStatus ⟨1, .active, none, "home", none, 1, none⟩]

def wardPlatform : Platform :=
  Platform.ofTable wardTable

/-- An instance that knows a user of another one, with a thread. -/
def ward : Host where
  toAppState := AppState.ofTable wardTable
  instanceDomain := "here"

def wardDb : StatusDb where
  db := {
    users := [⟨1, "ada", "ada", .federated, some 8, false⟩]
    threads := [⟨5, "hello", 1, "town", "", 0, "", false, none, some 8, none⟩] }

def wardUser (i : UInt8) (status : UserStatus)
    (parses : (wardPlatform.parse [i]).bind userStatusClass.select = some status) :
    StatusObject userStatusClass wardPlatform where
  wire := [i]
  payload := [i]
  signature := replicate 64 0
  status := status
  decodes := rfl
  parses := parses

def wardThread (i : UInt8) (status : ThreadStatus)
    (parses : (wardPlatform.parse [i]).bind (threadStatusClass true).select = some status) :
    StatusObject (threadStatusClass true) wardPlatform where
  wire := [i]
  payload := [i]
  signature := replicate 64 0
  status := status
  decodes := rfl
  parses := parses

def wardBan := wardUser 0 _ rfl
def wardLift := wardUser 1 _ rfl
def wardLock := wardThread 2 _ rfl
def wardOpen := wardThread 3 _ rfl
end Prismoire
