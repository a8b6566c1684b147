import Prismoire.SignedCbor

namespace Prismoire

open Lib List Table
open Lib.Cbor (Value)

section KeyOrder

instance : Std.TransCmp cborTextKeyCmp :=
  inferInstanceAs (Std.TransCmp (compareLex (compareOn String.utf8ByteSize) (compareOn Cbor.utf8)))

theorem eq_of_cborTextKeyCmp {a b : Text} (same : cborTextKeyCmp a b = .eq) : a = b := by
  rw [cborTextKeyCmp, Ordering.then_eq_eq] at same
  have bytes := Std.LawfulEqCmp.eq_of_compare same.2
  have read := congrArg Cbor.ofUtf8 bytes
  rw [Cbor.ofUtf8_utf8, Cbor.ofUtf8_utf8] at read
  exact Option.some.inj read

theorem lt_of_isLE {a b : Text} (le : (cborTextKeyCmp a b).isLE = true) (apart : a ≠ b) : cborTextKeyCmp a b = .lt := by
  cases order : cborTextKeyCmp a b with
  | lt => rfl
  | eq => exact absurd (eq_of_cborTextKeyCmp order) apart
  | gt => simp [order] at le

variable {entries : Table Text Value}

theorem sortEntries_perm (entries : Table Text Value) : (sortEntries entries).Perm entries :=
  perm_insertionSort _ _

theorem sortEntries_ascending (keyed : entries.Keyed) :
    (sortEntries entries).Pairwise fun a b => cborTextKeyCmp a.1 b.1 = .lt := by
  have total : Std.Total fun a b : Text × Value => (cborTextKeyCmp a.1 b.1).isLE = true := by
    constructor
    intro a b
    have swap : cborTextKeyCmp b.1 a.1 = (cborTextKeyCmp a.1 b.1).swap := Std.OrientedCmp.eq_swap
    rw [swap]
    cases cborTextKeyCmp a.1 b.1 <;> simp
  have trans : IsTrans (Text × Value) fun a b => (cborTextKeyCmp a.1 b.1).isLE = true :=
    ⟨fun a b c first second => Std.TransCmp.isLE_trans first second⟩
  have sorted : (sortEntries entries).Pairwise fun a b => (cborTextKeyCmp a.1 b.1).isLE = true :=
    pairwise_insertionSort _ _
  have distinct := (keyed.perm (sortEntries_perm entries))
  rw [Keyed, List.Nodup, pairwise_map] at distinct
  exact (sorted.and distinct).imp fun both => lt_of_isLE both.1 both.2

theorem readFields_ascending {lastKey : Option Text} {fields : Table Text Value}
    (ascending : entries.Pairwise fun a b => cborTextKeyCmp a.1 b.1 = .lt)
    (above : ∀ entry ∈ entries, ∀ prev ∈ lastKey, cborTextKeyCmp prev entry.1 = .lt)
    (fresh : ∀ entry ∈ entries, fields.get? entry.1 = none) :
    readFields lastKey fields (textKeyed entries) = .ok (fields ++ entries) := by
  induction entries generalizing lastKey fields with
  | nil => simp [textKeyed, readFields]
  | cons entry entries ih =>
    obtain ⟨first, ascending⟩ := pairwise_cons.mp ascending
    have inOrder : (lastKey.any fun prev => cborTextKeyCmp prev entry.1 != .lt) = false := by
      cases lastKey with
      | none => rfl
      | some prev => simp [above entry (mem_cons_self ..) prev rfl]
    have new := fresh entry (mem_cons_self ..)
    have rest := @ih (some entry.1) (fields ++ [entry]) ascending (by
        intro other mem prev isLast
        cases isLast
        exact first other mem)
      (by
        intro other mem
        have apart : entry.1 ≠ other.1 := by
          intro same
          have less := first other mem
          have self : cborTextKeyCmp other.1 other.1 = .eq := Std.ReflCmp.compare_self
          rw [same, self] at less
          cases less
        rw [Table.get?_append, fresh other (mem_cons_of_mem _ mem), Option.none_or]
        simp [Table.get?, apart])
    rw [textKeyed, map_cons, readFields, inOrder, new]
    simp only [Bool.false_eq_true, if_false, Option.isSome_none]
    rw [show (fields ++ [(entry.1, entry.2)]) = fields ++ [entry] from rfl, ← textKeyed, rest]
    simp

theorem readFields_buildMap (keyed : entries.Keyed) :
    ∃ fields, readFields none [] (textKeyed (sortEntries entries)) = .ok fields ∧
      ∀ name, fields.get? name = entries.get? name := by
  refine ⟨sortEntries entries, ?_, fun name => keyed.get?_perm (sortEntries_perm entries)⟩
  exact readFields_ascending (sortEntries_ascending keyed) (by simp) (by simp [Table.get?])

end KeyOrder

section Lookup

variable {fields entries : Table Text Value} {name key : Text} {value : Value}

@[simp] theorem get?_entry :
    Table.get? ((key, value) :: entries) name = if key = name then some value else entries.get? name := by
  by_cases same : key = name <;> simp [Table.get?, same]

@[simp] theorem get?_pushSome {value : Option Value} :
    (pushSome key value).get? name = if key = name then value else none := by
  cases value <;> simp [pushSome, Table.get?]

theorem keys_pushSome (key : Text) (value : Option Value) : ((pushSome key value).map Prod.fst).Sublist [key] := by
  cases value <;> simp [pushSome]

theorem fieldText_of {s : Text} (found : fields.get? name = some (text s)) : fieldText fields name = .ok s := by
  rw [fieldText, found]
  rfl

theorem fieldUint_of {n : Nat} (fits : n < 2 ^ 64) (found : fields.get? name = some (uint n)) :
    fieldUint fields name = .ok n := by
  rw [fieldUint, found]
  simp only [uint]
  rw [if_pos (by omega)]
  rfl

theorem fieldBytesFixed_of {b : Bytes} (found : fields.get? name = some (.bytes b)) :
    fieldBytesFixed fields name b.length = .ok b := by
  rw [fieldBytesFixed, found]
  simp only [if_true]

theorem fieldBits_of {w : Nat} {x : BitVec w} (whole : w % 8 = 0) (found : fields.get? name = some (bytes x)) :
    fieldBits fields name w = .ok x := by
  have pow : 256 ^ (w / 8) = 2 ^ w := by
    rw [show (256 : Nat) = 2 ^ 8 from rfl, ← Nat.pow_mul]
    congr 1
    omega
  have read : BitVec.ofNat w (Cbor.ofBe (Cbor.beBytes (w / 8) x.toNat)) = x := by
    rw [Cbor.ofBe_beBytes, pow, Nat.mod_eq_of_lt x.isLt, BitVec.ofNat_toNat, BitVec.setWidth_eq]
  have raw := fieldBytesFixed_of found
  rw [Cbor.length_beBytes] at raw
  rw [fieldBits, raw]
  exact congrArg Except.ok read

theorem optionalField_of {α : Type} {o : Option α} {write : α → Value} {read : Except ParseError α}
    (found : fields.get? name = o.map write) (reads : ∀ a, fields.get? name = some (write a) → o = some a → read = .ok a) :
    optionalField fields name read = .ok o := by
  cases o with
  | none =>
    rw [optionalField, found]
    rfl
  | some a =>
    rw [optionalField, reads a found rfl, found]
    rfl

theorem optionalText_of {o : Option Text} (found : fields.get? name = o.map text) :
    optionalField fields name (fieldText fields name) = .ok o :=
  optionalField_of found fun _ isSome _ => fieldText_of isSome

theorem optionalBits_of {w : Nat} {o : Option (BitVec w)} (whole : w % 8 = 0) (found : fields.get? name = o.map bytes) :
    optionalField fields name (fieldBits fields name w) = .ok o :=
  optionalField_of found fun _ isSome _ => fieldBits_of whole isSome

theorem optionalUint_of {o : Option Nat} (fits : ∀ n, o = some n → n < 2 ^ 64) (found : fields.get? name = o.map uint) :
    optionalField fields name (fieldUint fields name) = .ok o :=
  optionalField_of found fun n isSome isValue => fieldUint_of (fits n isValue) isSome

end Lookup

/-- A Rust string is no longer than `isize::MAX` bytes. -/
def FitsMemory (s : Text) : Prop :=
  s.utf8ByteSize < 2 ^ 63

instance (s : Text) : Decidable (FitsMemory s) :=
  inferInstanceAs (Decidable (s.utf8ByteSize < 2 ^ 63))

def IsU64 (n : Nat) : Prop :=
  n < 2 ^ 64

instance (n : Nat) : Decidable (IsU64 n) :=
  inferInstanceAs (Decidable (n < 2 ^ 64))

structure AttachmentRef.Wire (nfc : Text → Text) (r : AttachmentRef) : Prop where
  filename : sanitizeAttachmentFilename nfc r.filename = some r.filename
  mime : r.mime ∈ allowedMimes
  named : FitsMemory r.filename

/-- The source instance by both of its names or by neither, no predecessor for a birth, an attestation
of the same birth. -/
structure Move.Wire (m : Move) : Prop where
  coupled : m.fromInstanceKey.isSome = m.fromInstance.isSome
  birth : m.fromInstanceKey = none → m.priorMoveHash = none
  attestedKey : m.genesisAttestation.key = m.key
  attestedAt : m.genesisAttestation.genesisAt = m.genesisAt
  sig : m.genesisAttestation.sig.length = 64
  createdAt : IsU64 m.createdAt
  genesisAt : IsU64 m.genesisAt
  toInstance : FitsMemory m.toInstance
  fromInstance : ∀ domain ∈ m.fromInstance, FitsMemory domain

/-- What the parser enforces of a payload of each class, and what the Rust types do: integers of 64 bits,
signatures of 64 bytes, strings that fit into memory. -/
def SignedPayload.Wire (nfc : Text → Text) : SignedPayload → Prop
  | .postRevision p => IsU64 p.revision ∧ IsU64 p.createdAt ∧ FitsMemory p.body ∧ ∀ r ∈ p.attachments, r.Wire nfc
  | .retraction r => IsU64 r.createdAt
  | .trustEdge e => IsU64 e.createdAt
  | .profileRevision p => IsU64 p.createdAt ∧ FitsMemory p.displayName ∧ p.bio.utf8ByteSize ≤ maxProfileBioLen
  | .move m => m.Wire
  | .adminRemoval a => IsU64 a.createdAt ∧ FitsMemory a.signingInstance ∧ ∀ reason ∈ a.reason, FitsMemory reason
  | .fedEnvelope e => IsU64 e.createdAt ∧ FitsMemory e.method ∧ FitsMemory e.path
  | .registrationChallenge c => IsU64 c.createdAt ∧ FitsMemory c.destDomain
  | .priorHomeChallenge c => IsU64 c.createdAt ∧ IsU64 c.expiresAt
  | .priorHomeResponse r => IsU64 r.createdAt
  | .threadCreate t => IsU64 t.createdAt ∧ FitsMemory t.roomSlug ∧ t.title.utf8ByteSize ≤ maxThreadTitleLen ∧
      ∀ url ∈ t.linkUrl, FitsMemory url
  | .userStatus s => IsU64 s.createdAt ∧ FitsMemory s.signingInstance ∧ (∀ reason ∈ s.reason, FitsMemory reason) ∧
      (∀ end' ∈ s.suspendedUntil, IsU64 end') ∧ (s.suspendedUntil ≠ none → s.status = .suspended)
  | .deactivation d => IsU64 d.createdAt
  | .threadStatus s => IsU64 s.createdAt ∧ FitsMemory s.signingInstance ∧ ∀ reason ∈ s.reason, FitsMemory reason
  | .report r => IsU64 r.createdAt ∧ ∀ detail ∈ r.detail, detail.utf8ByteSize ≤ maxReportDetailLen

variable {nfc : Text → Text} {fields : Table Text Value}

theorem bind_of {α β : Type} {step : Except ParseError α} {next : α → Except ParseError β} {result : β} (mid : α)
    (first : step = .ok mid) (rest : next mid = .ok result) : (step >>= next) = .ok result := by
  rw [first]
  exact rest

theorem parseRetraction_of {r : Retraction} (wire : (SignedPayload.retraction r).Wire nfc)
    (reads : ∀ name, fields.get? name = (retractionEntries r).get? name) : parseRetraction fields = .ok r := by
  simp only [retractionEntries] at reads
  refine bind_of r.postId (fieldBits_of rfl (by simp [reads])) ?_
  refine bind_of r.author (fieldBits_of rfl (by simp [reads])) ?_
  refine bind_of r.createdAt (fieldUint_of wire (by simp [reads])) ?_
  rfl

theorem TrustStance.parse_asStr (stance : TrustStance) : TrustStance.parse stance.asStr = some stance := by
  cases stance <;> decide

theorem parseTrustEdge_of {e : TrustEdge} (wire : (SignedPayload.trustEdge e).Wire nfc)
    (reads : ∀ name, fields.get? name = (trustEdgeEntries e).get? name) : parseTrustEdge fields = .ok e := by
  simp only [trustEdgeEntries] at reads
  refine bind_of e.fromKey (fieldBits_of rfl (by simp [reads])) ?_
  refine bind_of e.toKey (fieldBits_of rfl (by simp [reads])) ?_
  refine bind_of e.stance.asStr (fieldText_of (by simp [reads])) ?_
  refine bind_of e.stance (by rw [TrustStance.parse_asStr, orElse]) ?_
  refine bind_of e.createdAt (fieldUint_of wire (by simp [reads])) ?_
  refine bind_of e.priorEdgeHash (optionalBits_of rfl (by simp [reads])) ?_
  rfl

theorem parseProfileRevision_of {p : ProfileRevision} (wire : (SignedPayload.profileRevision p).Wire nfc)
    (reads : ∀ name, fields.get? name = (profileRevisionEntries p).get? name) : parseProfileRevision fields = .ok p := by
  obtain ⟨created, -, short⟩ := wire
  simp only [profileRevisionEntries] at reads
  refine bind_of p.user (fieldBits_of rfl (by simp [reads])) ?_
  refine bind_of p.displayName (fieldText_of (by simp [reads])) ?_
  refine bind_of p.bio (fieldText_of (by simp [reads])) ?_
  rw [if_neg (Nat.not_lt.mpr short)]
  refine bind_of p.createdAt (fieldUint_of created (by simp [reads])) ?_
  refine bind_of p.avatarAttachmentHash (optionalBits_of rfl (by simp [reads, Table.get?_append])) ?_
  refine bind_of p.priorProfileHash (optionalBits_of rfl (by simp [reads, Table.get?_append])) ?_
  rfl

theorem parseAdminRemoval_of {a : AdminRemoval} (wire : (SignedPayload.adminRemoval a).Wire nfc)
    (reads : ∀ name, fields.get? name = (adminRemovalEntries a).get? name) : parseAdminRemoval fields = .ok a := by
  simp only [adminRemovalEntries] at reads
  refine bind_of a.postId (fieldBits_of rfl (by simp [reads])) ?_
  refine bind_of a.targetAuthor (fieldBits_of rfl (by simp [reads])) ?_
  refine bind_of a.signingInstance (fieldText_of (by simp [reads])) ?_
  refine bind_of a.createdAt (fieldUint_of wire.1 (by simp [reads])) ?_
  refine bind_of a.reason (optionalText_of (by simp [reads])) ?_
  rfl

theorem parseFedEnvelope_of {e : FedEnvelope} (wire : (SignedPayload.fedEnvelope e).Wire nfc)
    (reads : ∀ name, fields.get? name = (fedEnvelopeEntries e).get? name) : parseFedEnvelope fields = .ok e := by
  simp only [fedEnvelopeEntries] at reads
  refine bind_of e.sender (fieldBits_of rfl (by simp [reads])) ?_
  refine bind_of e.receiver (fieldBits_of rfl (by simp [reads])) ?_
  refine bind_of e.method (fieldText_of (by simp [reads])) ?_
  refine bind_of e.path (fieldText_of (by simp [reads])) ?_
  refine bind_of e.createdAt (fieldUint_of wire.1 (by simp [reads])) ?_
  refine bind_of e.nonce (fieldBits_of rfl (by simp [reads])) ?_
  refine bind_of e.bodyHash (optionalBits_of rfl (by simp [reads])) ?_
  rfl

theorem parseRegistrationChallenge_of {c : RegistrationChallenge} (wire : (SignedPayload.registrationChallenge c).Wire nfc)
    (reads : ∀ name, fields.get? name = (registrationChallengeEntries c).get? name) : parseRegistrationChallenge fields = .ok c := by
  simp only [registrationChallengeEntries] at reads
  refine bind_of c.userKey (fieldBits_of rfl (by simp [reads])) ?_
  refine bind_of c.destInstanceKey (fieldBits_of rfl (by simp [reads])) ?_
  refine bind_of c.destDomain (fieldText_of (by simp [reads])) ?_
  refine bind_of c.nonce (fieldBits_of rfl (by simp [reads])) ?_
  refine bind_of c.createdAt (fieldUint_of wire.1 (by simp [reads])) ?_
  rfl

theorem parsePriorHomeChallenge_of {c : PriorHomeChallenge} (wire : (SignedPayload.priorHomeChallenge c).Wire nfc)
    (reads : ∀ name, fields.get? name = (priorHomeChallengeEntries c).get? name) : parsePriorHomeChallenge fields = .ok c := by
  simp only [priorHomeChallengeEntries] at reads
  refine bind_of c.responderInstanceKey (fieldBits_of rfl (by simp [reads])) ?_
  refine bind_of c.subjectKey (fieldBits_of rfl (by simp [reads])) ?_
  refine bind_of c.nonce (fieldBits_of rfl (by simp [reads])) ?_
  refine bind_of c.createdAt (fieldUint_of wire.1 (by simp [reads])) ?_
  refine bind_of c.expiresAt (fieldUint_of wire.2 (by simp [reads])) ?_
  rfl

theorem parsePriorHomeResponse_of {r : PriorHomeResponse} (wire : (SignedPayload.priorHomeResponse r).Wire nfc)
    (reads : ∀ name, fields.get? name = (priorHomeResponseEntries r).get? name) : parsePriorHomeResponse fields = .ok r := by
  simp only [priorHomeResponseEntries] at reads
  refine bind_of r.subjectKey (fieldBits_of rfl (by simp [reads])) ?_
  refine bind_of r.challengeHash (fieldBits_of rfl (by simp [reads])) ?_
  refine bind_of r.createdAt (fieldUint_of wire (by simp [reads])) ?_
  rfl

theorem parseThreadCreate_of {t : ThreadCreate} (wire : (SignedPayload.threadCreate t).Wire nfc)
    (reads : ∀ name, fields.get? name = (threadCreateEntries t).get? name) : parseThreadCreate fields = .ok t := by
  obtain ⟨created, -, short, -⟩ := wire
  simp only [threadCreateEntries] at reads
  refine bind_of t.threadId (fieldBits_of rfl (by simp [reads])) ?_
  refine bind_of t.author (fieldBits_of rfl (by simp [reads])) ?_
  refine bind_of t.roomSlug (fieldText_of (by simp [reads])) ?_
  refine bind_of t.title (fieldText_of (by simp [reads])) ?_
  rw [if_neg (Nat.not_lt.mpr short)]
  refine bind_of t.opPostId (fieldBits_of rfl (by simp [reads])) ?_
  refine bind_of t.createdAt (fieldUint_of created (by simp [reads])) ?_
  refine bind_of t.linkUrl (optionalText_of (by simp [reads])) ?_
  rfl

theorem UserStatusKind.parse_asStr (status : UserStatusKind) : UserStatusKind.parse status.asStr = some status := by
  cases status <;> decide

theorem parseUserStatus_of {s : UserStatus} (wire : (SignedPayload.userStatus s).Wire nfc)
    (reads : ∀ name, fields.get? name = (userStatusEntries s).get? name) : parseUserStatus fields = .ok s := by
  obtain ⟨created, -, -, ends, suspended⟩ := wire
  have allowed : ¬ (s.suspendedUntil ≠ none ∧ s.status ≠ .suspended) := fun both => both.2 (suspended both.1)
  simp only [userStatusEntries] at reads
  refine bind_of s.subject (fieldBits_of rfl (by simp [reads])) ?_
  refine bind_of s.status.asStr (fieldText_of (by simp [reads])) ?_
  refine bind_of s.status (by rw [UserStatusKind.parse_asStr, orElse]) ?_
  refine bind_of s.signingInstance (fieldText_of (by simp [reads])) ?_
  refine bind_of s.createdAt (fieldUint_of created (by simp [reads])) ?_
  refine bind_of s.suspendedUntil (optionalUint_of ends (by simp [reads, Table.get?_append])) ?_
  rw [if_neg allowed]
  refine bind_of s.reason (optionalText_of (by simp [reads, Table.get?_append])) ?_
  refine bind_of s.priorStatusHash (optionalBits_of rfl (by simp [reads, Table.get?_append])) ?_
  rfl

theorem parseDeactivation_of {d : Deactivation} (wire : (SignedPayload.deactivation d).Wire nfc)
    (reads : ∀ name, fields.get? name = (deactivationEntries d).get? name) : parseDeactivation fields = .ok d := by
  simp only [deactivationEntries] at reads
  refine bind_of d.user (fieldBits_of rfl (by simp [reads])) ?_
  refine bind_of d.createdAt (fieldUint_of wire (by simp [reads])) ?_
  rfl

theorem ThreadStatusKind.parse_asStr (status : ThreadStatusKind) :
    ThreadStatusKind.parse status.asStr = some status := by
  cases status <;> decide

theorem parseThreadStatus_of {s : ThreadStatus} (wire : (SignedPayload.threadStatus s).Wire nfc)
    (reads : ∀ name, fields.get? name = (threadStatusEntries s).get? name) : parseThreadStatus fields = .ok s := by
  simp only [threadStatusEntries] at reads
  refine bind_of s.threadId (fieldBits_of rfl (by simp [reads])) ?_
  refine bind_of s.status.asStr (fieldText_of (by simp [reads])) ?_
  refine bind_of s.status (by rw [ThreadStatusKind.parse_asStr, orElse]) ?_
  refine bind_of s.signingInstance (fieldText_of (by simp [reads])) ?_
  refine bind_of s.createdAt (fieldUint_of wire.1 (by simp [reads])) ?_
  refine bind_of s.reason (optionalText_of (by simp [reads, Table.get?_append])) ?_
  refine bind_of s.priorStatusHash (optionalBits_of rfl (by simp [reads, Table.get?_append])) ?_
  rfl

theorem ReportReason.parse_asStr (reason : ReportReason) : ReportReason.parse reason.asStr = some reason := by
  cases reason <;> decide

theorem parseReport_of {r : Report} (wire : (SignedPayload.report r).Wire nfc)
    (reads : ∀ name, fields.get? name = (reportEntries r).get? name) : parseReport fields = .ok r := by
  simp only [reportEntries] at reads
  refine bind_of r.postId (fieldBits_of rfl (by simp [reads])) ?_
  refine bind_of r.targetAuthor (fieldBits_of rfl (by simp [reads])) ?_
  refine bind_of r.reporter (fieldBits_of rfl (by simp [reads])) ?_
  refine bind_of r.reason.asStr (fieldText_of (by simp [reads])) ?_
  refine bind_of r.reason (by rw [ReportReason.parse_asStr, orElse]) ?_
  refine bind_of r.createdAt (fieldUint_of wire.1 (by simp [reads])) ?_
  refine bind_of r.detail (@optionalField_of fields "detail" Text r.detail text _ (by simp [reads]) ?_) rfl
  intro d found isDetail
  refine bind_of d (fieldText_of found) ?_
  rw [if_neg (Nat.not_lt.mpr (wire.2 d isDetail))]
  rfl

theorem parseAttachmentRef_of {r : AttachmentRef} (wire : r.Wire nfc) :
    parseAttachmentRef nfc (attachmentRefToCbor r) = .ok r := by
  obtain ⟨fields, read, reads⟩ := @readFields_buildMap [("content_hash", bytes r.contentHash),
    ("filename", text r.filename), ("mime", text r.mime), ("size", uint r.size)] (by simp [Keyed])
  have contentHash : fieldBits fields "content_hash" 256 = .ok r.contentHash := fieldBits_of rfl (by simp [reads])
  have filename : fieldText fields "filename" = .ok r.filename := fieldText_of (by simp [reads])
  have mime : fieldText fields "mime" = .ok r.mime := fieldText_of (by simp [reads])
  have size : fieldUint fields "size" = .ok r.size := by
    refine fieldUint_of ?_ (by simp [reads])
    have fits := r.sizeFits
    rw [maxAttachmentSize] at fits
    omega
  rw [attachmentRefToCbor, buildMap, parseAttachmentRef]
  simp only [read, contentHash, filename, mime, size, bind, Except.bind, wire.filename, wire.mime, ne_eq,
    not_true_eq_false, if_false, r.sizeFits, dite_true]
  rfl

variable {a : GenesisAttestation} {refs : List AttachmentRef}

theorem parseAttachmentRefs_of (wire : ∀ r ∈ refs, r.Wire nfc) :
    parseAttachmentRefs nfc (refs.map attachmentRefToCbor) = .ok refs := by
  induction refs with
  | nil => rfl
  | cons r refs ih =>
    have first := parseAttachmentRef_of (wire r (mem_cons_self ..))
    have rest := ih fun other mem => wire other (mem_cons_of_mem _ mem)
    rw [map_cons, parseAttachmentRefs, first, rest]
    rfl

theorem parseAttachments_of (wire : ∀ r ∈ refs, r.Wire nfc)
    (fits : refs.length ≤ maxAttachmentsPerOp) (some' : refs ≠ [])
    (found : fields.get? "attachments" = some (attachmentsToCbor refs)) :
    parseAttachments nfc fields = .ok ⟨refs, fits⟩ := by
  have notEmpty : refs.map attachmentRefToCbor ≠ [] := by simpa using some'
  have few : (refs.map attachmentRefToCbor).length ≤ maxAttachmentsPerOp := by simpa using fits
  rw [parseAttachments, found]
  simp only [attachmentsToCbor, notEmpty, if_false, few, dite_true]
  split
  · rename_i run
    rw [parseAttachmentRefs_of wire] at run
    cases run
  · rename_i run
    rw [parseAttachmentRefs_of wire] at run
    cases run
    rfl

theorem parsePostRevision_of {p : PostRevision} (wire : (SignedPayload.postRevision p).Wire nfc)
    (reads : ∀ name, fields.get? name = (postRevisionEntries p).get? name) : parsePostRevision nfc fields = .ok p := by
  obtain ⟨isRevision, created, -, refs⟩ := wire
  simp only [postRevisionEntries] at reads
  refine bind_of p.postId (fieldBits_of rfl (by simp [reads])) ?_
  refine bind_of p.author (fieldBits_of rfl (by simp [reads])) ?_
  refine bind_of p.threadId (fieldBits_of rfl (by simp [reads])) ?_
  refine bind_of p.parentId (optionalBits_of rfl (by simp [reads, Table.get?_append])) ?_
  refine bind_of p.revision (fieldUint_of isRevision (by simp [reads])) ?_
  refine bind_of p.body (fieldText_of (by simp [reads])) ?_
  refine bind_of p.createdAt (fieldUint_of created (by simp [reads])) ?_
  have array : fields.get? "attachments" =
      if p.attachments = [] then none else some (attachmentsToCbor p.attachments) := by
    simp [reads, Table.get?_append]
  by_cases none : p.attachments = []
  · rw [if_pos none] at array
    refine bind_of .none (by rw [optionalField, array]; rfl) ?_
    cases p
    subst none
    rfl
  · rw [if_neg none] at array
    refine bind_of (some ⟨p.attachments, p.attachmentsFit⟩) ?_ rfl
    rw [optionalField, parseAttachments_of refs p.attachmentsFit none array, array]
    rfl

-- The entries stay a variable here, so that nothing sorts them again to check the steps.
theorem parseGenesisAttestation_map {entries : List (Value × Value)} {inner : Table Text Value}
    (found : fields.get? "genesis_attestation" = some (.map entries)) (read : readFields none [] entries = .ok inner)
    (key : fieldBits inner "key" 256 = .ok a.key) (genesisAt : fieldUint inner "genesis_at" = .ok a.genesisAt)
    (birth : fieldBits inner "birth_instance_key" 256 = .ok a.birthInstanceKey)
    (signature : fieldBytesFixed inner "sig" 64 = .ok a.sig) :
    parseGenesisAttestation fields a.key a.genesisAt = .ok a := by
  rw [parseGenesisAttestation, found]
  simp only [read, key, genesisAt, birth, signature, bind, Except.bind, ne_eq, not_true_eq_false, or_self, if_false]
  rfl

theorem parseGenesisAttestation_of (sig : a.sig.length = 64) (genesis : IsU64 a.genesisAt)
    (found : fields.get? "genesis_attestation" = some (genesisAttestationToCbor a)) :
    parseGenesisAttestation fields a.key a.genesisAt = .ok a := by
  obtain ⟨inner, read, reads⟩ := @readFields_buildMap [("key", bytes a.key), ("genesis_at", uint a.genesisAt),
    ("birth_instance_key", bytes a.birthInstanceKey), ("sig", .bytes a.sig)] (by simp [Keyed])
  have signature := fieldBytesFixed_of (show inner.get? "sig" = some (.bytes a.sig) by simp [reads])
  rw [sig] at signature
  exact parseGenesisAttestation_map found read (fieldBits_of rfl (by simp [reads]))
    (fieldUint_of genesis (by simp [reads])) (fieldBits_of rfl (by simp [reads])) signature

theorem parseMove_of {m : Move} (wire : (SignedPayload.move m).Wire nfc)
    (reads : ∀ name, fields.get? name = (moveEntries m).get? name) : parseMove fields = .ok m := by
  have wire : m.Wire := wire
  have coupled := wire.coupled
  simp only [moveEntries] at reads
  have foundKey : fields.get? "from_instance_key" = m.fromInstanceKey.map bytes := by
    rw [reads]
    cases isKey : m.fromInstanceKey <;> cases isDomain : m.fromInstance <;> simp [isKey, isDomain] at coupled ⊢
  have foundDomain : fields.get? "from_instance" = m.fromInstance.map text := by
    rw [reads]
    cases isKey : m.fromInstanceKey <;> cases isDomain : m.fromInstance <;> simp [isKey, isDomain] at coupled ⊢
  have foundPrior : fields.get? "prior_move_hash" = m.priorMoveHash.map bytes := by
    rw [reads]
    cases isKey : m.fromInstanceKey <;> cases isDomain : m.fromInstance <;> simp
  have together : (fields.get? "from_instance_key").isSome = (fields.get? "from_instance").isSome := by
    simpa [foundKey, foundDomain] using coupled
  refine bind_of m.key (fieldBits_of rfl (by simp [reads])) ?_
  rw [if_neg (not_not.mpr together)]
  refine bind_of m.fromInstanceKey (optionalBits_of rfl foundKey) ?_
  refine bind_of m.fromInstance (optionalText_of foundDomain) ?_
  refine bind_of m.toInstanceKey (fieldBits_of rfl (by simp [reads])) ?_
  refine bind_of m.toInstance (fieldText_of (by simp [reads])) ?_
  refine bind_of m.createdAt (fieldUint_of wire.createdAt (by simp [reads])) ?_
  refine bind_of m.genesisAt (fieldUint_of wire.genesisAt (by simp [reads])) ?_
  refine bind_of m.genesisAttestation ?_ ?_
  · rw [← wire.attestedKey, ← wire.attestedAt]
    exact parseGenesisAttestation_of wire.sig (wire.attestedAt ▸ wire.genesisAt) (by simp [reads])
  · refine bind_of m.priorMoveHash (optionalBits_of rfl foundPrior) ?_
    rw [if_neg fun both => both.2 (wire.birth both.1)]
    rfl

end Prismoire
