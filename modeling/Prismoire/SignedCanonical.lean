import Prismoire.Db
import Prismoire.SignedRoundTrip

namespace Prismoire

open Lib List Table
open Lib.Cbor (Value)

variable {fields : Table Text Value} {name : Text} {w : Nat} {error : ParseError} {names : List Text}

section Read

variable {s : Text}

theorem fieldText_ok (read : fieldText fields name = .ok s) : fields.get? name = some (text s) := by
  rw [fieldText] at read
  split at read
  · cases read
  · rename_i found
    cases read
    exact found
  · cases read

theorem fieldUint_ok {n : Nat} (read : fieldUint fields name = .ok n) : fields.get? name = some (uint n) ∧ IsU64 n := by
  rw [fieldUint] at read
  split at read
  · cases read
  · rename_i i found
    split at read
    · rename_i range
      cases read
      have same : (i.toNat : Int) = i := Int.toNat_of_nonneg range.1
      rw [found, uint, same, IsU64]
      exact ⟨rfl, by omega⟩
    · cases read
  · cases read

theorem fieldBytesFixed_ok {expected : Nat} {b : Bytes} (read : fieldBytesFixed fields name expected = .ok b) :
    fields.get? name = some (.bytes b) ∧ b.length = expected := by
  rw [fieldBytesFixed] at read
  split at read
  · cases read
  · rename_i found
    split at read
    · rename_i length
      cases read
      exact ⟨found, length⟩
    · cases read
  · cases read

theorem fieldBits_ok {x : BitVec w} (whole : w % 8 = 0) (read : fieldBits fields name w = .ok x) :
    fields.get? name = some (bytes x) := by
  obtain ⟨b, raw, returned⟩ := bind_ok.mp read
  obtain ⟨found, length⟩ := fieldBytesFixed_ok raw
  cases returned
  have pow : 256 ^ (w / 8) = 2 ^ w := by
    rw [show (256 : Nat) = 2 ^ 8 from rfl, ← Nat.pow_mul]
    congr 1
    omega
  have fits : Cbor.ofBe b < 2 ^ w := by
    rw [← pow, ← length]
    exact Cbor.ofBe_lt b
  rw [found, bytes, BitVec.toNat_ofNat, Nat.mod_eq_of_lt fits, ← length, Cbor.beBytes_ofBe]

theorem optionalField_ok {α : Type} {o : Option α} {write : α → Value} {read : Except ParseError α}
    (reads : ∀ a, read = .ok a → fields.get? name = some (write a)) (run : optionalField fields name read = .ok o) :
    fields.get? name = o.map write := by
  rw [optionalField] at run
  split at run
  · obtain ⟨a, isRead, returned⟩ := bind_ok.mp run
    cases returned
    exact reads a isRead
  · rename_i absent
    cases run
    simpa using absent

theorem optionalField_some {α : Type} {a : α} {read : Except ParseError α}
    (run : optionalField fields name read = .ok (some a)) : read = .ok a := by
  rw [optionalField] at run
  split at run
  · obtain ⟨b, isRead, returned⟩ := bind_ok.mp run
    cases returned
    exact isRead
  · cases run

theorem orElse_ok {α : Type} {value : Option α} {a : α} (run : orElse value error = .ok a) :
    value = some a := by
  cases value with
  | none => cases run
  | some b =>
    cases run
    rfl

theorem TrustStance.asStr_of_parse {stance : TrustStance} (parsed : TrustStance.parse s = some stance) :
    s = stance.asStr := by
  unfold TrustStance.parse at parsed
  split_ifs at parsed with trust distrust neutral <;> cases parsed
  · exact trust
  · exact distrust
  · exact neutral

theorem UserStatusKind.asStr_of_parse {status : UserStatusKind}
    (parsed : UserStatusKind.parse s = some status) : s = status.asStr := by
  unfold UserStatusKind.parse at parsed
  split_ifs at parsed with active suspended banned <;> cases parsed
  · exact active
  · exact suspended
  · exact banned

theorem ThreadStatusKind.asStr_of_parse {status : ThreadStatusKind}
    (parsed : ThreadStatusKind.parse s = some status) : s = status.asStr := by
  unfold ThreadStatusKind.parse at parsed
  split_ifs at parsed with isOpen locked <;> cases parsed
  · exact isOpen
  · exact locked

theorem ReportReason.asStr_of_parse {reason : ReportReason} (parsed : ReportReason.parse s = some reason) :
    s = reason.asStr := by
  unfold ReportReason.parse at parsed
  split_ifs at parsed with spam rules illegal other <;> cases parsed
  · exact spam
  · exact rules
  · exact illegal
  · exact other

theorem readFields_ok {lastKey : Option Text} {entries : List (Value × Value)} {seen : Table Text Value}
    (run : readFields lastKey seen entries = .ok fields) :
    ∃ added : Table Text Value, entries = textKeyed added ∧ fields = seen ++ added ∧
      added.Pairwise (fun a b => cborTextKeyCmp a.1 b.1 = .lt) ∧
      ∀ entry ∈ added, ∀ prev ∈ lastKey, cborTextKeyCmp prev entry.1 = .lt := by
  induction entries generalizing lastKey seen with
  | nil =>
    cases run
    exact ⟨[], rfl, by simp, .nil, by simp⟩
  | cons entry entries ih =>
    obtain ⟨key, value⟩ := entry
    cases key with
    | text key =>
      rw [readFields] at run
      split at run
      · cases run
      · rename_i inOrder
        split at run
        · cases run
        · obtain ⟨added, rfl, rfl, ascending, above⟩ := ih run
          have first : ∀ prev ∈ lastKey, cborTextKeyCmp prev key = .lt := by
            intro prev isLast
            cases isLast
            simpa using inOrder
          refine ⟨(key, value) :: added, rfl, by simp, ?_, ?_⟩
          · exact pairwise_cons.mpr ⟨fun other mem => above other mem key rfl, ascending⟩
          · intro other mem prev isLast
            rcases mem_cons.mp mem with rfl | later
            · exact first prev isLast
            · exact Std.TransCmp.lt_trans (first prev isLast) (above other later key rfl)
    | _ => cases run

end Read

section Order

variable {entries : Table Text Value} {lastKey : Option Text}

theorem cborTextKeyCmp_encode {a b : Text} (fits : a.utf8ByteSize < 2 ^ 64) (fits' : b.utf8ByteSize < 2 ^ 64) :
    cborTextKeyCmp a b = compare (Cbor.encode 1 (.text a)) (Cbor.encode 1 (.text b)) := by
  rw [Cbor.encode, Cbor.encode, Cbor.compare_head (by omega) fits fits', cborTextKeyCmp]

/-- A key that comes after the last one comes after all before it, so that the check for duplicates never fires. -/
theorem readFields_error (below : ∀ field ∈ fields, ∃ prev ∈ lastKey, (cborTextKeyCmp field.1 prev).isLE = true)
    (run : readFields lastKey fields (textKeyed entries) = .error error) : error = .keysOutOfOrder := by
  induction entries generalizing lastKey fields with
  | nil => cases run
  | cons entry entries ih =>
    rw [textKeyed, map_cons, readFields] at run
    split at run
    · cases run
      rfl
    · rename_i inOrder
      have before : ∀ field ∈ fields, cborTextKeyCmp field.1 entry.1 = .lt := by
        intro field mem
        obtain ⟨prev, isLast, le⟩ := below field mem
        cases isLast
        exact Std.TransCmp.lt_of_isLE_of_lt le (by simpa using inOrder)
      split at run
      · rename_i seen
        obtain ⟨value, held⟩ := Option.isSome_iff_exists.mp seen
        have less := before _ (mem_of_get? held)
        have self : cborTextKeyCmp entry.1 entry.1 = .eq := Std.ReflCmp.compare_self
        rw [self] at less
        cases less
      · refine ih ?_ run
        intro field mem
        rcases mem_concat.mp mem with earlier | rfl
        · exact ⟨_, rfl, by rw [before field earlier]; rfl⟩
        · exact ⟨_, rfl, Std.ReflCmp.isLE_rfl⟩

/-- The comparator is the bytewise order of the encoded keys, and a map of text keys is read exactly when its
encoded keys ascend. -/
theorem key_order_canonical (a b : Text) (fits : a.utf8ByteSize < 2 ^ 64) (fits' : b.utf8ByteSize < 2 ^ 64)
    (entries : Table Text Value) (allFit : ∀ entry ∈ entries, entry.1.utf8ByteSize < 2 ^ 64) :
    cborTextKeyCmp a b = compare (Cbor.encode 1 (.text a)) (Cbor.encode 1 (.text b)) ∧
      readFields none [] (textKeyed entries) =
        if entries.Pairwise fun one other =>
            compare (Cbor.encode 1 (.text one.1)) (Cbor.encode 1 (.text other.1)) = .lt
        then .ok entries else .error .keysOutOfOrder := by
  refine ⟨cborTextKeyCmp_encode fits fits', ?_⟩
  have same : entries.Pairwise (fun one other =>
      compare (Cbor.encode 1 (.text one.1)) (Cbor.encode 1 (.text other.1)) = .lt) ↔
      entries.Pairwise fun one other => cborTextKeyCmp one.1 other.1 = .lt := by
    refine List.Pairwise.iff_of_mem ?_
    intro one other mem mem'
    rw [cborTextKeyCmp_encode (allFit one mem) (allFit other mem')]
  split
  · rename_i ascending
    exact readFields_ascending (same.mp ascending) (by simp) (by simp [Table.get?])
  · rename_i mixed
    cases run : readFields none [] (textKeyed entries) with
    | error error => rw [readFields_error (by simp) run]
    | ok fields =>
      obtain ⟨added, same', -, ascending, -⟩ := readFields_ok run
      have distinct : Function.Injective fun entry : Text × Value => (Value.text entry.1, entry.2) := by
        intro one other
        simp [Prod.ext_iff]
      obtain rfl := map_injective_iff.mpr distinct same'
      exact absurd (same.mpr ascending) mixed

theorem key_order_canonical_long : cborTextKeyCmp (String.ofList (List.replicate 24 'a')) "z" =
      compare (Cbor.encode 1 (.text (String.ofList (List.replicate 24 'a')))) (Cbor.encode 1 (.text "z")) ∧
    readFields none [] (textKeyed [("z", .null), (String.ofList (List.replicate 24 'a'), .null)]) =
      .ok [("z", .null), (String.ofList (List.replicate 24 'a'), .null)] := by
  obtain ⟨order, read⟩ := key_order_canonical (String.ofList (List.replicate 24 'a')) "z" (by decide +kernel)
    (by decide +kernel) [("z", .null), (String.ofList (List.replicate 24 'a'), .null)] (by decide +kernel)
  exact ⟨order, read.trans (if_pos (by simp; decide +kernel))⟩

end Order

def OnlyNames (names : List Text) : Value → Prop
  | .map entries => ∀ entry ∈ entries, ∃ name ∈ names, entry.1 = .text name
  | _ => False

def attachmentNames : List Text :=
  ["content_hash", "filename", "mime", "size"]

def attestationNames : List Text :=
  ["key", "genesis_at", "birth_instance_key", "sig"]

/-- The maps below a map have no keys but those that are read. -/
structure NestedKnown (fields : Table Text Value) : Prop where
  attachments : ∀ items, fields.get? "attachments" = some (.array items) →
    ∀ item ∈ items, OnlyNames attachmentNames item
  attestation : ∀ inner, fields.get? "genesis_attestation" = some inner → OnlyNames attestationNames inner

theorem keyed_of_ascending {fields : Table Text Value}
    (ascending : fields.Pairwise fun a b => cborTextKeyCmp a.1 b.1 = .lt) : fields.Keyed := by
  rw [Keyed, List.Nodup, pairwise_map]
  refine ascending.imp ?_
  intro a b less same
  have self : cborTextKeyCmp b.1 b.1 = .eq := Std.ReflCmp.compare_self
  rw [same, self] at less
  cases less

theorem buildMap_of_read {entries : List (Value × Value)} {fields written : Table Text Value}
    (read : readFields none [] entries = .ok fields) (known : OnlyNames names (.map entries))
    (keyed : written.Keyed) (sub : ∀ entry ∈ written, entry.1 ∈ names)
    (same : ∀ name ∈ names, fields.get? name = written.get? name) : Value.map entries = buildMap written := by
  obtain ⟨_, rfl, rfl, ascending, -⟩ := readFields_ok read
  have lookups : ∀ name, fields.get? name = written.get? name := by
    intro name
    by_cases isName : name ∈ names
    · exact same name isName
    · have missing : fields.get? name = none := by
        rw [Table.get?_eq_none]
        rintro entry mem rfl
        obtain ⟨other, isOther, isKey⟩ := known _ (mem_map_of_mem mem)
        cases isKey
        exact isName isOther
      have unwritten : written.get? name = none := by
        rw [Table.get?_eq_none]
        rintro entry mem rfl
        exact isName (sub entry mem)
      rw [missing, unwritten]
  have perm := (keyed_of_ascending ascending).perm_of_get? keyed lookups
  have sorted : fields = sortEntries written := by
    refine List.Perm.eq_of_pairwise ?_ ascending (sortEntries_ascending keyed)
      (perm.trans (sortEntries_perm written).symm)
    intro a b _ _ less more
    rw [Std.OrientedCmp.gt_of_lt less] at more
    cases more
  rw [buildMap, ← sorted]

/-- The strings of a payload that no bound of the parser limits fit into memory, as Rust strings do. -/
def SignedPayload.InMemory : SignedPayload → Prop
  | .postRevision p => FitsMemory p.body ∧ ∀ r ∈ p.attachments, FitsMemory r.filename
  | .profileRevision p => FitsMemory p.displayName
  | .move m => FitsMemory m.toInstance ∧ ∀ domain ∈ m.fromInstance, FitsMemory domain
  | .adminRemoval a => FitsMemory a.signingInstance ∧ ∀ reason ∈ a.reason, FitsMemory reason
  | .fedEnvelope e => FitsMemory e.method ∧ FitsMemory e.path
  | .registrationChallenge c => FitsMemory c.destDomain
  | .threadCreate t => FitsMemory t.roomSlug ∧ ∀ url ∈ t.linkUrl, FitsMemory url
  | .userStatus s => FitsMemory s.signingInstance ∧ ∀ reason ∈ s.reason, FitsMemory reason
  | .threadStatus s => FitsMemory s.signingInstance ∧ ∀ reason ∈ s.reason, FitsMemory reason
  | .retraction _ | .trustEdge _ | .priorHomeChallenge _ | .priorHomeResponse _ | .deactivation _ | .report _ => True

/-- What was read says the same as what would be written, and keeps the bounds of its class. -/
structure ReadBack (nfc : Text → Text) (fields : Table Text Value) (payload : SignedPayload) : Prop where
  same : NestedKnown fields → ∀ name ∈ payload.fieldNames, fields.get? name = payload.entries.get? name
  wire : payload.InMemory → payload.Wire nfc

/-- The tag and the version of a class. -/
structure OfClass (fields : Table Text Value) (className : Text) : Prop where
  t : fields.get? "t" = some (text className)
  v : fields.get? "v" = some (uint v1)

variable {nfc : Text → Text}

section Inverse

attribute [local simp] SignedPayload.fieldNames SignedPayload.entries

variable {α : Type} {result : α}

theorem bits_ok {next : BitVec w → Except ParseError α} (run : (fieldBits fields name w >>= next) = .ok result)
    (whole : w % 8 = 0) : ∃ x, fields.get? name = some (bytes x) ∧ next x = .ok result := by
  obtain ⟨x, read, run⟩ := bind_ok.mp run
  exact ⟨x, fieldBits_ok whole read, run⟩

theorem uint_ok {next : Nat → Except ParseError α} (run : (fieldUint fields name >>= next) = .ok result) :
    ∃ n, fields.get? name = some (uint n) ∧ n < 2 ^ 64 ∧ next n = .ok result := by
  obtain ⟨n, read, run⟩ := bind_ok.mp run
  exact ⟨n, (fieldUint_ok read).1, (fieldUint_ok read).2, run⟩

theorem text_ok {next : Text → Except ParseError α} (run : (fieldText fields name >>= next) = .ok result) :
    ∃ s, fields.get? name = some (text s) ∧ next s = .ok result := by
  obtain ⟨s, read, run⟩ := bind_ok.mp run
  exact ⟨s, fieldText_ok read, run⟩

theorem optBits_ok {next : Option (BitVec w) → Except ParseError α}
    (run : (optionalField fields name (fieldBits fields name w) >>= next) = .ok result)
    (whole : w % 8 = 0) : ∃ o, fields.get? name = o.map bytes ∧ next o = .ok result := by
  obtain ⟨o, read, run⟩ := bind_ok.mp run
  exact ⟨o, optionalField_ok (fun _ => fieldBits_ok whole) read, run⟩

theorem optText_ok {next : Option Text → Except ParseError α}
    (run : (optionalField fields name (fieldText fields name) >>= next) = .ok result) :
    ∃ o, fields.get? name = o.map text ∧ next o = .ok result := by
  obtain ⟨o, read, run⟩ := bind_ok.mp run
  exact ⟨o, optionalField_ok (fun _ => fieldText_ok) read, run⟩

theorem parseRetraction_ok {r : Retraction} (cls : OfClass fields tagRetraction) (parsed : parseRetraction fields = .ok r) :
    ReadBack nfc fields (.retraction r) := by
  obtain ⟨postId, isPost, parsed⟩ := bits_ok parsed rfl
  obtain ⟨author, isAuthor, parsed⟩ := bits_ok parsed rfl
  obtain ⟨createdAt, created, fits, parsed⟩ := uint_ok parsed
  cases parsed
  refine ⟨fun _ => ?_, fun _ => fits⟩
  simp [retractionEntries, cls.t, cls.v, isPost, isAuthor, created]

theorem parseTrustEdge_ok {e : TrustEdge} (cls : OfClass fields tagTrustEdge) (parsed : parseTrustEdge fields = .ok e) :
    ReadBack nfc fields (.trustEdge e) := by
  obtain ⟨fromKey, isFrom, parsed⟩ := bits_ok parsed rfl
  obtain ⟨toKey, isTo, parsed⟩ := bits_ok parsed rfl
  obtain ⟨stanceStr, isStr, parsed⟩ := text_ok parsed
  obtain ⟨stance, isStance, parsed⟩ := bind_ok.mp parsed
  obtain ⟨createdAt, created, fits, parsed⟩ := uint_ok parsed
  obtain ⟨prior, isPrior, parsed⟩ := optBits_ok parsed rfl
  cases parsed
  obtain rfl := TrustStance.asStr_of_parse (orElse_ok isStance)
  refine ⟨fun _ => ?_, fun _ => fits⟩
  simp [trustEdgeEntries, cls.t, cls.v, isFrom, isTo, isStr, created, isPrior]

theorem parseProfileRevision_ok {p : ProfileRevision} (cls : OfClass fields tagProfile)
    (parsed : parseProfileRevision fields = .ok p) :
    ReadBack nfc fields (.profileRevision p) := by
  obtain ⟨user, isUser, parsed⟩ := bits_ok parsed rfl
  obtain ⟨displayName, isName, parsed⟩ := text_ok parsed
  obtain ⟨bio, isBio, parsed⟩ := text_ok parsed
  split at parsed
  · cases parsed
  · rename_i short
    obtain ⟨createdAt, created, fits, parsed⟩ := uint_ok parsed
    obtain ⟨avatar, isAvatar, parsed⟩ := optBits_ok parsed rfl
    obtain ⟨prior, isPrior, parsed⟩ := optBits_ok parsed rfl
    cases parsed
    refine ⟨fun _ => ?_, fun memory => ⟨fits, memory, Nat.le_of_not_lt short⟩⟩
    simp [profileRevisionEntries, cls.t, cls.v, isUser, isName, isBio, created, isAvatar, isPrior, Table.get?_append]

theorem parseAdminRemoval_ok {a : AdminRemoval} (cls : OfClass fields tagAdminRemoval)
    (parsed : parseAdminRemoval fields = .ok a) :
    ReadBack nfc fields (.adminRemoval a) := by
  obtain ⟨postId, isPost, parsed⟩ := bits_ok parsed rfl
  obtain ⟨targetAuthor, isTarget, parsed⟩ := bits_ok parsed rfl
  obtain ⟨signingInstance, isSigner, parsed⟩ := text_ok parsed
  obtain ⟨createdAt, created, fits, parsed⟩ := uint_ok parsed
  obtain ⟨reason, isReason, parsed⟩ := optText_ok parsed
  cases parsed
  refine ⟨fun _ => ?_, fun memory => ⟨fits, memory.1, memory.2⟩⟩
  simp [adminRemovalEntries, cls.t, cls.v, isPost, isTarget, isSigner, created, isReason]

theorem parseFedEnvelope_ok {e : FedEnvelope} (cls : OfClass fields tagFedEnvelope)
    (parsed : parseFedEnvelope fields = .ok e) :
    ReadBack nfc fields (.fedEnvelope e) := by
  obtain ⟨sender, isSender, parsed⟩ := bits_ok parsed rfl
  obtain ⟨receiver, isReceiver, parsed⟩ := bits_ok parsed rfl
  obtain ⟨method, isMethod, parsed⟩ := text_ok parsed
  obtain ⟨path, isPath, parsed⟩ := text_ok parsed
  obtain ⟨createdAt, created, fits, parsed⟩ := uint_ok parsed
  obtain ⟨nonce, isNonce, parsed⟩ := bits_ok parsed rfl
  obtain ⟨bodyHash, isBody, parsed⟩ := optBits_ok parsed rfl
  cases parsed
  refine ⟨fun _ => ?_, fun memory => ⟨fits, memory.1, memory.2⟩⟩
  simp [fedEnvelopeEntries, cls.t, cls.v, isSender, isReceiver, isMethod, isPath, created, isNonce, isBody]

theorem parseRegistrationChallenge_ok {c : RegistrationChallenge} (cls : OfClass fields tagRegistrationChallenge)
    (parsed : parseRegistrationChallenge fields = .ok c) : ReadBack nfc fields (.registrationChallenge c) := by
  obtain ⟨userKey, isUser, parsed⟩ := bits_ok parsed rfl
  obtain ⟨destKey, isKey, parsed⟩ := bits_ok parsed rfl
  obtain ⟨destDomain, isDomain, parsed⟩ := text_ok parsed
  obtain ⟨nonce, isNonce, parsed⟩ := bits_ok parsed rfl
  obtain ⟨createdAt, created, fits, parsed⟩ := uint_ok parsed
  cases parsed
  refine ⟨fun _ => ?_, fun memory => ⟨fits, memory⟩⟩
  simp [registrationChallengeEntries, cls.t, cls.v, isUser, isKey, isDomain, isNonce, created]

theorem parsePriorHomeChallenge_ok {c : PriorHomeChallenge} (cls : OfClass fields tagPriorHomeChallenge)
    (parsed : parsePriorHomeChallenge fields = .ok c) : ReadBack nfc fields (.priorHomeChallenge c) := by
  obtain ⟨responder, isResponder, parsed⟩ := bits_ok parsed rfl
  obtain ⟨subject, isSubject, parsed⟩ := bits_ok parsed rfl
  obtain ⟨nonce, isNonce, parsed⟩ := bits_ok parsed rfl
  obtain ⟨createdAt, created, fits, parsed⟩ := uint_ok parsed
  obtain ⟨expiresAt, expires, expiryFits, parsed⟩ := uint_ok parsed
  cases parsed
  refine ⟨fun _ => ?_, fun _ => ⟨fits, expiryFits⟩⟩
  simp [priorHomeChallengeEntries, cls.t, cls.v, isResponder, isSubject, isNonce, created, expires]

theorem parsePriorHomeResponse_ok {r : PriorHomeResponse} (cls : OfClass fields tagPriorHomeResponse)
    (parsed : parsePriorHomeResponse fields = .ok r) :
    ReadBack nfc fields (.priorHomeResponse r) := by
  obtain ⟨subject, isSubject, parsed⟩ := bits_ok parsed rfl
  obtain ⟨challenge, isChallenge, parsed⟩ := bits_ok parsed rfl
  obtain ⟨createdAt, created, fits, parsed⟩ := uint_ok parsed
  cases parsed
  refine ⟨fun _ => ?_, fun _ => fits⟩
  simp [priorHomeResponseEntries, cls.t, cls.v, isSubject, isChallenge, created]

theorem parseThreadCreate_ok {c : ThreadCreate} (cls : OfClass fields tagThreadCreate)
    (parsed : parseThreadCreate fields = .ok c) :
    ReadBack nfc fields (.threadCreate c) := by
  obtain ⟨threadId, isThread, parsed⟩ := bits_ok parsed rfl
  obtain ⟨author, isAuthor, parsed⟩ := bits_ok parsed rfl
  obtain ⟨roomSlug, isSlug, parsed⟩ := text_ok parsed
  obtain ⟨title, isTitle, parsed⟩ := text_ok parsed
  split at parsed
  · cases parsed
  · rename_i short
    obtain ⟨opPostId, isPost, parsed⟩ := bits_ok parsed rfl
    obtain ⟨createdAt, created, fits, parsed⟩ := uint_ok parsed
    obtain ⟨linkUrl, isUrl, parsed⟩ := optText_ok parsed
    cases parsed
    refine ⟨fun _ => ?_, fun memory => ⟨fits, memory.1, Nat.le_of_not_lt short, memory.2⟩⟩
    simp [threadCreateEntries, cls.t, cls.v, isThread, isAuthor, isSlug, isTitle, isPost, created, isUrl]

theorem parseUserStatus_ok {s : UserStatus} (cls : OfClass fields tagUserStatus) (parsed : parseUserStatus fields = .ok s) :
    ReadBack nfc fields (.userStatus s) := by
  obtain ⟨subject, isSubject, parsed⟩ := bits_ok parsed rfl
  obtain ⟨statusStr, isStr, parsed⟩ := text_ok parsed
  obtain ⟨status, isStatus, parsed⟩ := bind_ok.mp parsed
  obtain ⟨signingInstance, isSigner, parsed⟩ := text_ok parsed
  obtain ⟨createdAt, created, fits, parsed⟩ := uint_ok parsed
  obtain ⟨suspendedUntil, isSuspended, parsed⟩ := bind_ok.mp parsed
  split at parsed
  · cases parsed
  · rename_i legal
    obtain ⟨reason, isReason, parsed⟩ := optText_ok parsed
    obtain ⟨prior, isPrior, parsed⟩ := optBits_ok parsed rfl
    cases parsed
    obtain rfl := UserStatusKind.asStr_of_parse (orElse_ok isStatus)
    have suspended := optionalField_ok (fun n read => (fieldUint_ok read).1) isSuspended
    refine ⟨fun _ => ?_, fun memory => ⟨fits, memory.1, memory.2, ?_, ?_⟩⟩
    · simp [userStatusEntries, cls.t, cls.v, isSubject, isStr, isSigner, created, suspended, isReason,
        isPrior, Table.get?_append]
    · rintro n rfl
      exact (fieldUint_ok (optionalField_some isSuspended)).2
    · intro present
      by_contra other
      exact legal ⟨present, other⟩

theorem parseDeactivation_ok {d : Deactivation} (cls : OfClass fields tagDeactivation)
    (parsed : parseDeactivation fields = .ok d) :
    ReadBack nfc fields (.deactivation d) := by
  obtain ⟨user, isUser, parsed⟩ := bits_ok parsed rfl
  obtain ⟨createdAt, created, fits, parsed⟩ := uint_ok parsed
  cases parsed
  refine ⟨fun _ => ?_, fun _ => fits⟩
  simp [deactivationEntries, cls.t, cls.v, isUser, created]

theorem parseThreadStatus_ok {s : ThreadStatus} (cls : OfClass fields tagThreadStatus)
    (parsed : parseThreadStatus fields = .ok s) :
    ReadBack nfc fields (.threadStatus s) := by
  obtain ⟨threadId, isThread, parsed⟩ := bits_ok parsed rfl
  obtain ⟨statusStr, isStr, parsed⟩ := text_ok parsed
  obtain ⟨status, isStatus, parsed⟩ := bind_ok.mp parsed
  obtain ⟨signingInstance, isSigner, parsed⟩ := text_ok parsed
  obtain ⟨createdAt, created, fits, parsed⟩ := uint_ok parsed
  obtain ⟨reason, isReason, parsed⟩ := optText_ok parsed
  obtain ⟨prior, isPrior, parsed⟩ := optBits_ok parsed rfl
  cases parsed
  obtain rfl := ThreadStatusKind.asStr_of_parse (orElse_ok isStatus)
  refine ⟨fun _ => ?_, fun memory => ⟨fits, memory.1, memory.2⟩⟩
  simp [threadStatusEntries, cls.t, cls.v, isThread, isStr, isSigner, created, isReason, isPrior, Table.get?_append]

theorem parseReport_ok {r : Report} (cls : OfClass fields tagReport) (parsed : parseReport fields = .ok r) :
    ReadBack nfc fields (.report r) := by
  obtain ⟨postId, isPost, parsed⟩ := bits_ok parsed rfl
  obtain ⟨targetAuthor, isTarget, parsed⟩ := bits_ok parsed rfl
  obtain ⟨reporter, isReporter, parsed⟩ := bits_ok parsed rfl
  obtain ⟨reasonStr, isStr, parsed⟩ := text_ok parsed
  obtain ⟨reason, isReason, parsed⟩ := bind_ok.mp parsed
  obtain ⟨createdAt, created, fits, parsed⟩ := uint_ok parsed
  obtain ⟨detail, isDetail, parsed⟩ := bind_ok.mp parsed
  cases parsed
  obtain rfl := ReportReason.asStr_of_parse (orElse_ok isReason)
  have bounded : ∀ d, (do
      let d ← fieldText fields "detail"
      if d.utf8ByteSize > maxReportDetailLen then
        throw (ParseError.textTooLong "detail" maxReportDetailLen d.utf8ByteSize)
      return d : Except ParseError Text) = .ok d →
      fields.get? "detail" = some (text d) ∧ d.utf8ByteSize ≤ maxReportDetailLen := by
    intro d read
    obtain ⟨raw, isRaw, read⟩ := text_ok read
    split at read
    · cases read
    · rename_i short
      cases read
      exact ⟨isRaw, Nat.le_of_not_lt short⟩
  have found := optionalField_ok (fun d read => (bounded d read).1) isDetail
  refine ⟨fun _ => ?_, fun _ => ⟨fits, ?_⟩⟩
  · simp [reportEntries, cls.t, cls.v, isPost, isTarget, isReporter, isStr, created, found]
  · rintro d rfl
    exact (bounded d (optionalField_some isDetail)).2

theorem parseAttachmentRef_ok {item : Value} {r : AttachmentRef} (parsed : parseAttachmentRef nfc item = .ok r) :
    (FitsMemory r.filename → r.Wire nfc) ∧ (OnlyNames attachmentNames item → item = attachmentRefToCbor r) := by
  cases item with
  | map entries =>
    obtain ⟨inner, read, parsed⟩ := bind_ok.mp parsed
    obtain ⟨contentHash, isHash, parsed⟩ := bits_ok parsed rfl
    obtain ⟨filename, isName, parsed⟩ := text_ok parsed
    split at parsed
    · cases parsed
    · rename_i sanitized
      obtain ⟨mime, isMime, parsed⟩ := text_ok parsed
      split at parsed
      · cases parsed
      · rename_i allowed
        obtain ⟨size, isSize, parsed⟩ := bind_ok.mp parsed
        split at parsed
        · cases parsed
          refine ⟨fun named => ⟨not_not.mp sanitized, not_not.mp allowed, named⟩, ?_⟩
          intro known
          refine buildMap_of_read read known (by simp [Keyed]) (by simp [attachmentNames]) ?_
          simp [attachmentNames, isHash, isName, isMime, (fieldUint_ok isSize).1]
        · cases parsed
  | _ => cases parsed

theorem parseAttachmentRefs_ok {items : List Value} {refs : List AttachmentRef}
    (parsed : parseAttachmentRefs nfc items = .ok refs) :
    (∀ r ∈ refs, FitsMemory r.filename → r.Wire nfc) ∧
      ((∀ item ∈ items, OnlyNames attachmentNames item) → items = refs.map attachmentRefToCbor) := by
  induction items generalizing refs with
  | nil =>
    cases parsed
    simp
  | cons item items ih =>
    obtain ⟨r, first, parsed⟩ := bind_ok.mp parsed
    obtain ⟨rest, later, parsed⟩ := bind_ok.mp parsed
    cases parsed
    obtain ⟨wire, whole⟩ := parseAttachmentRef_ok first
    obtain ⟨restWire, restWhole⟩ := ih later
    constructor
    · intro other mem
      rcases mem_cons.mp mem with rfl | inRest
      · exact wire
      · exact restWire other inRest
    · intro known
      rw [map_cons, ← whole (known item (mem_cons_self ..)),
        ← restWhole fun other mem => known other (mem_cons_of_mem _ mem)]

theorem parseAttachments_ok {refs : { refs : List AttachmentRef // refs.length ≤ maxAttachmentsPerOp }}
    (parsed : parseAttachments nfc fields = .ok refs) :
    refs.1 ≠ [] ∧ (∀ r ∈ refs.1, FitsMemory r.filename → r.Wire nfc) ∧
      (NestedKnown fields → fields.get? "attachments" = some (attachmentsToCbor refs.1)) := by
  unfold parseAttachments at parsed
  split at parsed
  · cases parsed
  · rename_i items found
    split at parsed
    · cases parsed
    · rename_i some
      split at parsed
      · split at parsed
        · cases parsed
        · rename_i read isRead
          cases parsed
          obtain ⟨wire, whole⟩ := parseAttachmentRefs_ok isRead
          have length := length_parseAttachmentRefs nfc isRead
          refine ⟨?_, wire, ?_⟩
          · rintro rfl
            exact some (eq_nil_of_length_eq_zero length.symm)
          · intro known
            rw [found, attachmentsToCbor, ← whole (known.attachments items found)]
      · cases parsed
  · cases parsed

theorem parsePostRevision_ok {p : PostRevision} (cls : OfClass fields tagPostRevision)
    (parsed : parsePostRevision nfc fields = .ok p) :
    ReadBack nfc fields (.postRevision p) := by
  obtain ⟨postId, isPost, parsed⟩ := bits_ok parsed rfl
  obtain ⟨author, isAuthor, parsed⟩ := bits_ok parsed rfl
  obtain ⟨threadId, isThread, parsed⟩ := bits_ok parsed rfl
  obtain ⟨parentId, isParent, parsed⟩ := optBits_ok parsed rfl
  obtain ⟨revision, revised, revisionFits, parsed⟩ := uint_ok parsed
  obtain ⟨body, isBody, parsed⟩ := text_ok parsed
  obtain ⟨createdAt, created, fits, parsed⟩ := uint_ok parsed
  obtain ⟨attachments, isList, parsed⟩ := bind_ok.mp parsed
  cases attachments with
  | none =>
    cases parsed
    have absent : fields.get? "attachments" = none := by
      rw [optionalField] at isList
      split at isList
      · obtain ⟨refs, -, returned⟩ := bind_ok.mp isList
        cases returned
      · rename_i missing
        simpa using missing
    refine ⟨fun _ => ?_, fun memory => ⟨revisionFits, fits, memory.1, by simp⟩⟩
    simp [postRevisionEntries, cls.t, cls.v, isPost, isAuthor, isThread, revised, isBody, created,
      isParent, absent, Table.get?_append]
  | some refs =>
    obtain ⟨present, wire, found⟩ := parseAttachments_ok (optionalField_some isList)
    obtain ⟨refs, few⟩ := refs
    cases parsed
    refine ⟨fun known => ?_, fun memory => ⟨revisionFits, fits, memory.1, ?_⟩⟩
    · simp [postRevisionEntries, cls.t, cls.v, isPost, isAuthor, isThread, revised, isBody, created,
        isParent, found known, Table.get?_append, present]
    · intro r mem
      exact wire r mem (memory.2 r mem)

theorem parseGenesisAttestation_ok {a : GenesisAttestation} {key : Key} {genesisAt : Nat}
    (parsed : parseGenesisAttestation fields key genesisAt = .ok a) :
    a.key = key ∧ a.genesisAt = genesisAt ∧ a.sig.length = 64 ∧
      (NestedKnown fields → fields.get? "genesis_attestation" = some (genesisAttestationToCbor a)) := by
  unfold parseGenesisAttestation at parsed
  split at parsed
  · cases parsed
  · rename_i entries found
    obtain ⟨inner, read, parsed⟩ := bind_ok.mp parsed
    obtain ⟨innerKey, isKey, parsed⟩ := bits_ok parsed rfl
    obtain ⟨innerAt, isAt, parsed⟩ := bind_ok.mp parsed
    obtain ⟨birth, isBirth, parsed⟩ := bits_ok parsed rfl
    obtain ⟨sig, isSig, parsed⟩ := bind_ok.mp parsed
    split at parsed
    · cases parsed
    · rename_i agree
      rw [not_or, not_not, not_not] at agree
      cases parsed
      refine ⟨agree.1, agree.2, (fieldBytesFixed_ok isSig).2, ?_⟩
      intro known
      rw [found]
      refine congrArg some (buildMap_of_read read (known.attestation _ found) (by simp [Keyed])
        (by simp [attestationNames]) ?_)
      simp [attestationNames, isKey, (fieldUint_ok isAt).1, isBirth, (fieldBytesFixed_ok isSig).1]
  · cases parsed

theorem parseMove_ok {m : Move} (cls : OfClass fields tagMove) (parsed : parseMove fields = .ok m) :
    ReadBack nfc fields (.move m) := by
  obtain ⟨key, isKey, parsed⟩ := bits_ok parsed rfl
  dsimp only at parsed
  split at parsed
  · cases parsed
  · rename_i together
    obtain ⟨fromKey, foundKey, parsed⟩ := optBits_ok parsed rfl
    obtain ⟨fromDomain, foundDomain, parsed⟩ := optText_ok parsed
    obtain ⟨toKey, isToKey, parsed⟩ := bits_ok parsed rfl
    obtain ⟨toDomain, isToDomain, parsed⟩ := text_ok parsed
    obtain ⟨createdAt, created, fits, parsed⟩ := uint_ok parsed
    obtain ⟨genesisAt, genesis, genesisFits, parsed⟩ := uint_ok parsed
    obtain ⟨attestation, isAttestation, parsed⟩ := bind_ok.mp parsed
    obtain ⟨prior, isPrior, parsed⟩ := optBits_ok parsed rfl
    split at parsed
    · cases parsed
    · rename_i birth
      cases parsed
      obtain ⟨attestedKey, attestedAt, sig, attested⟩ := parseGenesisAttestation_ok isAttestation
      have coupled : fromKey.isSome = fromDomain.isSome := by
        simpa [foundKey, foundDomain] using together
      refine ⟨fun known => ?_, fun memory => ⟨coupled, ?_, attestedKey, attestedAt, sig, fits, genesisFits,
        memory.1, memory.2⟩⟩
      · cases fromKey <;> cases fromDomain <;> simp [moveEntries, cls.t, cls.v, isKey,
            isToKey, isToDomain, created, genesis, attested known, foundKey,
            foundDomain, isPrior] at coupled ⊢
      · intro isBirth
        by_contra present
        exact birth ⟨isBirth, present⟩

end Inverse

/-- A map whose keys, and those of the maps below it, are all ones that the class of its tag writes. -/
def KnownKeys : Value → Prop
  | .map entries =>
    (∃ kind : SignedPayload, (text "t", text kind.tag) ∈ entries ∧ OnlyNames kind.fieldNames (.map entries)) ∧
    (∀ items, (text "attachments", Value.array items) ∈ entries → ∀ item ∈ items, OnlyNames attachmentNames item) ∧
    ∀ inner, (text "genesis_attestation", inner) ∈ entries → OnlyNames attestationNames inner
  | _ => False

variable {cbor : Ciborium}

variable {payload : SignedPayload}

variable {t : Text} {version : Nat} {value : Value}

theorem classArm_ok {α : Type} {className : Text} {parse : Except ParseError α}
    {wrap : α → SignedPayload} {below : Except ParseError SignedPayload}
    (run : (if t = className then parseClass className version parse wrap else below) = .ok payload)
    (tagged : fields.get? "t" = some (text t)) (versioned : fields.get? "v" = some (uint version))
    (wraps : ∀ {x}, (wrap x).tag = className)
    (back : ∀ {x}, OfClass fields className → parse = .ok x → ReadBack nfc fields (wrap x))
    (missed : below = .ok payload → t = payload.tag ∧ ReadBack nfc fields payload) :
    t = payload.tag ∧ ReadBack nfc fields payload := by
  split at run
  · rename_i isClass
    subst isClass
    rw [parseClass] at run
    split at run
    · rename_i isFirst
      subst isFirst
      cases parse with
      | error e => cases run
      | ok x =>
        cases run
        exact ⟨wraps.symm, back ⟨tagged, versioned⟩ rfl⟩
    · cases run
  · exact missed run

theorem dispatch_ok (tagged : fields.get? "t" = some (text t)) (versioned : fields.get? "v" = some (uint version))
    (run : dispatch nfc fields t version = .ok payload) : t = payload.tag ∧ ReadBack nfc fields payload := by
  rw [dispatch] at run
  refine classArm_ok run tagged versioned rfl parsePostRevision_ok fun run => ?_
  refine classArm_ok run tagged versioned rfl parseRetraction_ok fun run => ?_
  refine classArm_ok run tagged versioned rfl parseTrustEdge_ok fun run => ?_
  refine classArm_ok run tagged versioned rfl parseProfileRevision_ok fun run => ?_
  refine classArm_ok run tagged versioned rfl parseMove_ok fun run => ?_
  refine classArm_ok run tagged versioned rfl parseAdminRemoval_ok fun run => ?_
  refine classArm_ok run tagged versioned rfl parseFedEnvelope_ok fun run => ?_
  refine classArm_ok run tagged versioned rfl parseRegistrationChallenge_ok fun run => ?_
  refine classArm_ok run tagged versioned rfl parsePriorHomeChallenge_ok fun run => ?_
  refine classArm_ok run tagged versioned rfl parsePriorHomeResponse_ok fun run => ?_
  refine classArm_ok run tagged versioned rfl parseThreadCreate_ok fun run => ?_
  refine classArm_ok run tagged versioned rfl parseUserStatus_ok fun run => ?_
  refine classArm_ok run tagged versioned rfl parseDeactivation_ok fun run => ?_
  refine classArm_ok run tagged versioned rfl parseThreadStatus_ok fun run => ?_
  refine classArm_ok run tagged versioned rfl parseReport_ok fun run => ?_
  cases run

theorem SignedPayload.parse_ok {input : Bytes} (parsed : SignedPayload.parse nfc cbor input = .ok payload) :
    ∃ entries fields, cbor.fromReader input = some (.map entries) ∧ cbor.intoWriter (.map entries) = input ∧
      readFields none [] entries = .ok fields ∧ fields.get? "t" = some (text payload.tag) ∧
      ReadBack nfc fields payload := by
  rw [parse] at parsed
  split at parsed
  · cases parsed
  · rename_i value decoded
    split at parsed
    · cases parsed
    · rename_i same
      split at parsed
      · rename_i entries
        obtain ⟨fields, read, parsed⟩ := bind_ok.mp parsed
        obtain ⟨t, isTag, parsed⟩ := bind_ok.mp parsed
        obtain ⟨version, isVersion, parsed⟩ := bind_ok.mp parsed
        have tagged := fieldText_ok isTag
        obtain ⟨rfl, back⟩ := dispatch_ok tagged (fieldUint_ok isVersion).1 parsed
        exact ⟨entries, fields, decoded, not_not.mp same, read, tagged, back⟩
      · cases parsed

theorem SignedPayload.fieldNames_of_tag {other : SignedPayload} (same : payload.tag = other.tag) :
    payload.fieldNames = other.fieldNames := by
  cases payload <;> cases other <;> first
    | rfl
    | simp [tag, tagPostRevision, tagRetraction, tagTrustEdge, tagProfile, tagMove, tagAdminRemoval, tagFedEnvelope,
        tagRegistrationChallenge, tagPriorHomeChallenge, tagPriorHomeResponse, tagThreadCreate, tagUserStatus,
        tagDeactivation, tagThreadStatus, tagReport] at same

theorem mem_textKeyed (keyed : fields.Keyed) :
    (text name, value) ∈ textKeyed fields ↔ fields.get? name = some value := by
  rw [textKeyed, mem_map]
  constructor
  · rintro ⟨entry, mem, same⟩
    cases same
    exact keyed.get? mem
  · intro found
    exact ⟨_, mem_of_get? found, rfl⟩

theorem onlyNames_buildMap {written : Table Text Value} (sub : ∀ entry ∈ written, entry.1 ∈ names) :
    OnlyNames names (buildMap written) := by
  intro entry mem
  obtain ⟨source, isSource, rfl⟩ := mem_map.mp mem
  exact ⟨source.1, sub source ((sortEntries_perm written).mem_iff.mp isSource), rfl⟩

theorem onlyNames_attachmentRef (r : AttachmentRef) : OnlyNames attachmentNames (attachmentRefToCbor r) :=
  onlyNames_buildMap (by simp [attachmentNames])

theorem onlyNames_attestation (a : GenesisAttestation) : OnlyNames attestationNames (genesisAttestationToCbor a) :=
  onlyNames_buildMap (by simp [attestationNames])

theorem SignedPayload.mem_fieldNames (found : payload.entries.get? name = some value) : name ∈ payload.fieldNames :=
  payload.keys_sublist.subset (mem_map_of_mem (mem_of_get? found))

theorem SignedPayload.nestedKnown_entries (payload : SignedPayload) : NestedKnown payload.entries := by
  constructor
  · intro items found item mem
    have isName := mem_fieldNames found
    cases payload with
    | postRevision p =>
      have list : Value.array items = attachmentsToCbor p.attachments := by
        by_cases none : p.attachments = []
        · simp [entries, postRevisionEntries, none, Table.get?_append] at found
        · simpa [entries, postRevisionEntries, none, Table.get?_append] using found.symm
      cases list
      obtain ⟨r, -, rfl⟩ := mem_map.mp mem
      exact onlyNames_attachmentRef r
    | _ => simp [fieldNames] at isName
  · intro inner found
    have isName := mem_fieldNames found
    cases payload with
    | move m =>
      have attestation : inner = genesisAttestationToCbor m.genesisAttestation := by
        simpa [entries, moveEntries, Table.get?_append] using found.symm
      rw [attestation]
      exact onlyNames_attestation _
    | _ => simp [fieldNames] at isName

theorem SignedPayload.knownKeys_toCborValue (payload : SignedPayload) : KnownKeys payload.toCborValue := by
  have keyed : (sortEntries payload.entries).Keyed := payload.keyed_entries.perm (sortEntries_perm _)
  have same : ∀ name, (sortEntries payload.entries).get? name = payload.entries.get? name :=
    fun name => payload.keyed_entries.get?_perm (sortEntries_perm _)
  have nested := payload.nestedKnown_entries
  refine ⟨⟨payload, ?_, ?_⟩, ?_, ?_⟩
  · rw [mem_textKeyed keyed, same, get?_tag]
  · refine onlyNames_buildMap ?_
    intro entry mem
    exact payload.keys_sublist.subset (mem_map_of_mem mem)
  · intro items mem
    rw [mem_textKeyed keyed, same] at mem
    exact nested.attachments items mem
  · intro inner mem
    rw [mem_textKeyed keyed, same] at mem
    exact nested.attestation inner mem

theorem ReadBack.eq_toCborValue {entries : List (Value × Value)}
    (read : readFields none [] entries = .ok fields) (tagged : fields.get? "t" = some (text payload.tag))
    (back : ReadBack nfc fields payload) (known : KnownKeys (.map entries)) :
    Value.map entries = payload.toCborValue := by
  obtain ⟨⟨kind, kindTag, only⟩, attachments, attestation⟩ := known
  obtain ⟨_, rfl, rfl, ascending, -⟩ := readFields_ok read
  have keyed := keyed_of_ascending ascending
  simp only [mem_textKeyed keyed] at kindTag attachments attestation
  have sameTag : kind.tag = payload.tag := by
    rw [tagged] at kindTag
    exact (Value.text.inj (Option.some.inj kindTag)).symm
  rw [SignedPayload.fieldNames_of_tag sameTag] at only
  refine buildMap_of_read read only payload.keyed_entries ?_ (back.same ⟨attachments, attestation⟩)
  intro entry mem
  exact payload.keys_sublist.subset (mem_map_of_mem mem)

/-- An accepted input is what its payload is written as exactly when all its keys are known, at every level; so
two such inputs that decode to one payload are one input. -/
theorem canonical_form_iff (faithful : cbor.Faithful) :
    (∀ input payload, SignedPayload.parse nfc cbor input = .ok payload → payload.InMemory →
      (payload.encode cbor = input ↔ ∃ value, cbor.fromReader input = some value ∧ KnownKeys value)) ∧
    ∀ input other payload, SignedPayload.parse nfc cbor input = .ok payload →
      SignedPayload.parse nfc cbor other = .ok payload →
      (∃ value, cbor.fromReader input = some value ∧ KnownKeys value) →
      (∃ value, cbor.fromReader other = some value ∧ KnownKeys value) → input = other := by
  have rebuilt : ∀ input payload, SignedPayload.parse nfc cbor input = .ok payload →
      (∃ value, cbor.fromReader input = some value ∧ KnownKeys value) → payload.encode cbor = input := by
    rintro input payload parsed ⟨value, decoded, known⟩
    obtain ⟨entries, fields, isMap, same, read, tagged, back⟩ := SignedPayload.parse_ok parsed
    cases isMap.symm.trans decoded
    rw [SignedPayload.encode, ← back.eq_toCborValue read tagged known, same]
  constructor
  · intro input payload parsed memory
    refine ⟨?_, rebuilt input payload parsed⟩
    intro same
    obtain ⟨entries, fields, isMap, -, -, -, back⟩ := SignedPayload.parse_ok parsed
    have plain := (SignedPayload.plain_toCborValue (back.wire memory).typed).mono (Nat.le_of_ble_eq_true rfl : 5 ≤ 256)
    have decoded := faithful payload.toCborValue plain
    rw [← SignedPayload.encode, same] at decoded
    exact ⟨_, decoded, payload.knownKeys_toCborValue⟩
  · intro input other payload parsed otherParsed known otherKnown
    rw [← rebuilt input payload parsed known, ← rebuilt other payload otherParsed otherKnown]

def leaver : Deactivation where
  user := 7
  createdAt := 1700000000

/-- A deactivation with a key that no class writes. -/
def annotatedEntries : Table Text Value :=
  deactivationEntries leaver ++ [("zz", uint 0)]

def annotatedDeactivation : Bytes :=
  shortestCbor.intoWriter (buildMap annotatedEntries)

theorem leaver_wire : SignedPayload.Wire id (.deactivation leaver) := by
  show IsU64 leaver.createdAt
  decide

theorem annotated_plain : Cbor.Plain 256 (buildMap annotatedEntries) := by
  have named : PlainNames (annotatedEntries.map Prod.fst) := ⟨by decide, by decide⟩
  have values : PlainValues 2 annotatedEntries := by
    simp [annotatedEntries, deactivationEntries]
    decide
  exact (plain_buildMap (List.Sublist.refl _) named values).mono (by omega)

theorem leaver_known_keys :
    SignedPayload.parse id shortestCbor (SignedPayload.encode shortestCbor (.deactivation leaver)) =
      .ok (.deactivation leaver) ∧
    ∃ value, shortestCbor.fromReader (SignedPayload.encode shortestCbor (.deactivation leaver)) = some value ∧
      KnownKeys value := by
  have parsed := SignedPayload.parse_encode shortestCbor_faithful leaver_wire
  exact ⟨parsed, ((canonical_form_iff shortestCbor_faithful).1 _ _ parsed trivial).mp rfl⟩

theorem annotated_parse : SignedPayload.parse id shortestCbor annotatedDeactivation = .ok (.deactivation leaver) := by
  have keyed : annotatedEntries.Keyed := by
    simp [Keyed, annotatedEntries, deactivationEntries]
  obtain ⟨fields, read, reads⟩ := readFields_buildMap keyed
  have back := shortestCbor_faithful _ annotated_plain
  have tag : fieldText fields "t" = .ok tagDeactivation := fieldText_of (reads "t")
  have version : fieldUint fields "v" = .ok v1 := fieldUint_of (by decide) (reads "v")
  have user : fieldBits fields "user" 256 = .ok leaver.user := fieldBits_of rfl (reads "user")
  have createdAt : fieldUint fields "created_at" = .ok leaver.createdAt := fieldUint_of (by decide) (reads "created_at")
  have parsed : parseDeactivation fields = .ok leaver := by
    simp only [parseDeactivation, user, createdAt, bind, Except.bind]
    rfl
  rw [SignedPayload.parse, annotatedDeactivation, back]
  simp only [buildMap, ne_eq, not_true_eq_false, if_false, read, tag, version, bind, Except.bind]
  exact parseClass_of tagDeactivation .deactivation parsed

theorem annotated_deactivation_not_canonical :
    SignedPayload.parse id shortestCbor annotatedDeactivation = .ok (.deactivation leaver) ∧
    SignedPayload.encode shortestCbor (.deactivation leaver) ≠ annotatedDeactivation ∧
    SignedPayload.parse id shortestCbor (SignedPayload.encode shortestCbor (.deactivation leaver)) =
      .ok (.deactivation leaver) := by
  have read := SignedPayload.parse_encode shortestCbor_faithful leaver_wire
  refine ⟨annotated_parse, ?_, read⟩
  intro same
  have decoded := shortestCbor_faithful _ annotated_plain
  rw [← annotatedDeactivation, ← same, SignedPayload.encode,
    shortestCbor_faithful _ ((SignedPayload.plain_toCborValue leaver_wire.typed).mono (by omega))] at decoded
  have entries := Value.map.inj (Option.some.inj decoded)
  have lengths := congrArg List.length entries
  rw [textKeyed, textKeyed, length_map, length_map, (sortEntries_perm _).length_eq,
    (sortEntries_perm _).length_eq] at lengths
  exact absurd lengths (by decide)

end Prismoire
