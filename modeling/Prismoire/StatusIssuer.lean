import Prismoire.StatusConvergence

namespace Prismoire

open Lib List

def statusChain {σ : Type} (hash : σ → Hash) : Option Hash → List (Option Hash → σ) → List σ
  | _, [] => []
  | prior, call :: rest =>
    let status := call prior
    status :: statusChain hash (some (hash status)) rest

section

variable {ι σ ρ : Type} {cls : StatusClass ι σ ρ} {platform : Platform} {host : Host} {s : StatusDb}
  {sign : σ → SigningOutput} {encode : SigningOutput → Bytes} {subject : ι}
  {calls : List (Option Hash → σ)} {prior : Option Hash} {items : List (Hash × σ)} {hash : σ → Hash}

def issueStatus (cls : StatusClass ι σ ρ) (host : Host) (sign : σ → SigningOutput) (s : StatusDb) (subject : ι)
    (call : Option Hash → σ) : SigningOutput × StatusDb :=
  dispatchLocalStatus cls host sign s (call ((cls.row s subject).map fun row => (cls.head row).2))

def issueStatuses (cls : StatusClass ι σ ρ) (host : Host) (sign : σ → SigningOutput) (subject : ι) (s : StatusDb) :
    List (Option Hash → σ) → List SigningOutput × StatusDb
  | [] => ([], s)
  | call :: rest =>
    let (signed, s) := issueStatus cls host sign s subject call
    let (more, s) := issueStatuses cls host sign subject s rest
    (signed :: more, s)

def signedHash (platform : Platform) (sign : σ → SigningOutput) (status : σ) : Hash :=
  platform.sha256 (sign status).payload

theorem issueStatuses_eq (lawful : cls.Lawful)
    (about : ∀ call ∈ calls, ∀ prior, cls.subject (call prior) = subject) :
    let head := (cls.row s subject).map fun row => (cls.head row).2
    let chain := statusChain (signedHash host.platform sign) head calls
    (issueStatuses cls host sign subject s calls).1 = chain.map sign ∧
    cls.row (issueStatuses cls host sign subject s calls).2 subject =
      (chain.getLast?.map fun status => cls.rowOf (signedHash host.platform sign status) status).or (cls.row s subject) := by
  induction calls generalizing s with
  | nil => exact ⟨rfl, rfl⟩
  | cons call rest ih =>
    intro head chain
    have isAbout := about call (by simp) head
    have row : cls.row (issueStatus cls host sign s subject call).2 subject =
        some (cls.rowOf (signedHash host.platform sign (call head)) (call head)) := by
      have upserted := lawful.rowUpsert (signedHash host.platform sign (call head)) (call head)
        (storeStatus cls host s (sign (call head)).payload (sign (call head)).signature)
      rwa [isAbout] at upserted
    have tail := @ih (issueStatus cls host sign s subject call).2
      fun other inRest => about other (mem_cons_of_mem _ inRest)
    rw [row, Option.map_some, lawful.headOf] at tail
    obtain ⟨outputs, final⟩ := tail
    refine ⟨congrArg _ outputs, final.trans ?_⟩
    dsimp only [chain, statusChain]
    rw [getLast?_cons]
    cases (statusChain (signedHash host.platform sign) (some (signedHash host.platform sign (call head))) rest).getLast? <;>
      rfl

theorem issueStatuses_fresh (lawful : cls.Lawful)
    (about : ∀ call ∈ calls, ∀ prior, cls.subject (call prior) = subject) (noRow : cls.row s subject = none) :
    let chain := statusChain (signedHash host.platform sign) none calls
    (issueStatuses cls host sign subject s calls).1 = chain.map sign ∧
    cls.row (issueStatuses cls host sign subject s calls).2 subject =
      chain.getLast?.map fun status => cls.rowOf (signedHash host.platform sign status) status := by
  have run := @issueStatuses_eq _ _ _ cls host s sign subject calls lawful about
  rw [noRow] at run
  exact ⟨run.1, run.2.trans (Option.or_none)⟩

theorem linked_statusChain (chains : ∀ call ∈ calls, ∀ prior, cls.priorStatusHash (call prior) = prior) :
    Linked hash cls.priorStatusHash prior (statusChain hash prior calls) := by
  induction calls generalizing prior with
  | nil => trivial
  | cons call rest ih =>
    exact ⟨chains call (by simp) prior, ih fun other inRest => chains other (mem_cons_of_mem _ inRest)⟩

theorem subject_statusChain (about : ∀ call ∈ calls, ∀ prior, cls.subject (call prior) = subject) :
    ∀ status ∈ statusChain hash prior calls, cls.subject status = subject := by
  induction calls generalizing prior with
  | nil => nofun
  | cons call rest ih =>
    intro status mem
    rcases mem_cons.mp mem with rfl | inRest
    · exact about call (by simp) prior
    · exact ih (fun other inRest => about other (mem_cons_of_mem _ inRest)) status inRest

/-- What the signing layer promises: the wire bytes decode, the payload parses, the signature verifies. -/
structure Travels (cls : StatusClass ι σ ρ) (platform : Platform) (sign : σ → SigningOutput)
    (encode : SigningOutput → Bytes) (key : Key) (status : σ) : Prop where
  decodes : platform.decodeSignedObject (encode (sign status)) = some ((sign status).payload, (sign status).signature)
  parses : (platform.parse (sign status).payload).bind cls.select = some status
  verifies : signatureOk platform (sign status).payload (sign status).signature key = true

def Travels.object {key : Key} {status : σ} (travels : Travels cls platform sign encode key status) :
    StatusObject cls platform where
  wire := encode (sign status)
  payload := (sign status).payload
  signature := (sign status).signature
  status := status
  decodes := travels.decodes
  parses := travels.parses

structure CaughtUp (host : Host) (subject : ι) (start : StatusDb) (chain done : List (StatusObject cls platform))
    (s : StatusDb) : Prop where
  authorised : ∀ o ∈ chain, o.Authorised host s.db
  known : ∀ hash, s.db.hasObject hash = true → start.db.hasObject hash = true ∨ hash ∈ done.map StatusObject.hash
  held : ∀ o ∈ done, s.db.signedObjects.any fun row =>
    row.canonicalHash = o.hash ∧ row.innerClass = cls.innerClass ∧ row.payload.isSome
  row : cls.row s subject = (offers cls.rank ((done.map StatusObject.item).foldl cls.contend [])).map cls.rowOfItem

section Peer

variable {start : StatusDb} {chain done rest : List (StatusObject cls platform)} {o : StatusObject cls platform}

theorem CaughtUp.grounded (caughtUp : CaughtUp host subject start chain done s)
    (linked : Linked StatusObject.hash (fun o => cls.priorStatusHash o.status) none (done ++ o :: rest)) :
    grounded cls s.db o.status = true := by
  have prior := linked.prior_eq
  rw [Option.or_none] at prior
  unfold Prismoire.grounded
  rw [prior, tip]
  cases last : done.getLast? with
  | none => rfl
  | some previous => exact caughtUp.held previous (mem_of_getLast? last)

variable (on : host.platform = platform) (lawful : cls.Lawful) (of : StatusesOf subject chain)
  (linked : Linked StatusObject.hash (fun o => cls.priorStatusHash o.status) none chain)
  (fresh : ∀ o ∈ chain, start.db.hasObject o.hash = false)
include on lawful of linked fresh

theorem CaughtUp.deliver (split : chain = done ++ o :: rest) (caughtUp : CaughtUp host subject start chain done s) :
    CaughtUp host subject start chain (done ++ [o]) (deliverStatus cls host s o.wire) := by
  have mem : o ∈ chain := by simp [split]
  have isNew : s.db.hasObject o.hash ≠ true := by
    intro stored
    rcases caughtUp.known _ stored with old | again
    · rw [fresh o mem] at old
      cases old
    · have distinct := linked.nodup_hash fun a inA b inB same => congrArg (cls.priorStatusHash ·.2) (of.item_eq inA inB same)
      rw [split, map_append, map_cons, nodup_append] at distinct
      exact distinct.2.2 _ again _ (by simp) rfl
  have isGrounded := caughtUp.grounded (split ▸ linked)
  obtain ⟨stored, -⟩ | ⟨-, missing, -⟩ | ⟨-, -, -, after⟩ :=
    applyOneStatus_authorised on (caughtUp.authorised o mem)
  · exact absurd stored isNew
  · rw [isGrounded] at missing
    cases missing
  rw [after]
  refine ⟨fun other inChain => (caughtUp.authorised other inChain).stored lawful, fun hash stored => ?_,
    fun other inDone => ?_, ?_⟩
  · rw [map_append, mem_append]
    rcases (o.hasObject_stored on lawful).mp stored with rfl | old
    · simp
    · rcases caughtUp.known hash old with before | inDone
      · exact .inl before
      · exact .inr (.inl inDone)
  · rw [o.stored_objects lawful, Db.storeSignedObject_of_absent (by rw [on]; exact Bool.eq_false_iff.mpr isNew),
      any_append, Bool.or_eq_true]
    rcases mem_concat.mp inDone with old | isLast
    · exact .inl (caughtUp.held other old)
    · rw [isLast]
      right
      simp [StatusObject.hash, on]
  · have about := of.about o mem
    subst about
    rw [row_stored lawful caughtUp.row, map_append, foldl_append]
    rfl

theorem CaughtUp.deliverAll (split : chain = done ++ rest) (caughtUp : CaughtUp host subject start chain done s) :
    CaughtUp host subject start chain chain (deliverAll host s rest) := by
  induction rest generalizing done s with
  | nil =>
    rw [append_nil] at split
    subst split
    exact caughtUp
  | cons o rest ih =>
    exact ih (by rw [split, append_assoc, singleton_append]) (caughtUp.deliver on lawful of linked fresh split)

end Peer

def LastStands (cls : StatusClass ι σ ρ) (items : List (Hash × σ)) : Prop :=
  ∀ last, items.getLast? = some last → Best cls.rank (items.foldl cls.contend []) last

theorem mem_contend {held : List (Hash × σ)} {new item : Hash × σ} (mem : item ∈ cls.contend held new) :
    item ∈ held ∨ item = new := by
  unfold StatusClass.contend at mem
  split at mem
  · simpa using mem
  · exact .inr (mem_singleton.mp mem)

theorem new_mem_contend (held : List (Hash × σ)) (new : Hash × σ) : new ∈ cls.contend held new := by
  unfold StatusClass.contend
  split <;> simp

theorem mem_of_contending {item : Hash × σ} (mem : item ∈ items.foldl cls.contend []) :
    item ∈ items := by
  induction items using List.reverseRecOn with
  | nil => exact mem
  | append_singleton items new ih =>
    rw [foldl_append] at mem
    rcases mem_contend mem with old | rfl
    · exact mem_append_left _ (ih old)
    · simp

theorem offers_contending (apart : ∀ a ∈ items, ∀ b ∈ items, a.1 = b.1 → a = b) :
    offers cls.rank (items.foldl cls.contend []) = items.getLast? ↔ LastStands cls items := by
  obtain ⟨none_, isNone⟩ | ⟨best, held, isBest⟩ := offers_cases cls.rank (items.foldl cls.contend [])
  · have empty : items = [] := by
      cases items using List.reverseRecOn with
      | nil => rfl
      | append_singleton items new =>
        rw [foldl_append] at none_
        have mem := @new_mem_contend _ _ _ cls (items.foldl cls.contend []) new
        rw [show cls.contend (items.foldl cls.contend []) new = [] from none_] at mem
        cases mem
    subst empty
    simp [LastStands, offers]
  · rw [held]
    constructor
    · intro same last isLast
      rw [isLast, Option.some.injEq] at same
      exact same ▸ isBest
    · intro stands
      have mem := mem_of_contending isBest.member
      obtain ⟨last, isLast⟩ := Option.isSome_iff_exists.mp (getLast?_isSome.mpr (ne_nil_of_mem mem))
      have isFirst := stands last isLast
      have equal : cls.rank best = cls.rank last :=
        le_antisymm (isFirst.highest best isBest.member) (isBest.highest last isFirst.member)
      rw [isLast, apart best mem last (mem_of_getLast? isLast) (BitVec.eq_of_toNat_eq (latest_inj equal).2)]

/-- A peer that knows the issuer as the subject's home and receives the whole chain of its statuses. -/
structure IssuedTo (cls : StatusClass ι σ ρ) (host peer : Host) (sign : σ → SigningOutput)
    (encode : SigningOutput → Bytes) (subject : ι) (chain : List σ) (t : StatusDb) : Prop where
  on : peer.platform = host.platform
  travels : ∀ status ∈ chain, Travels cls host.platform sign encode host.instanceKey status
  home : ∀ status ∈ chain, cls.home peer t.db status = .ok host.instanceKey
  label : ∀ status ∈ chain,
    (resolveDomainForKey peer t.db host.instanceKey).any (· ≠ cls.signingInstance status) = false ∧
    cls.signingInstance status ≠ ""
  fresh : ∀ status ∈ chain, t.db.hasObject (signedHash host.platform sign status) = false
  noRow : cls.row t subject = none
  apart : ∀ a ∈ chain, ∀ b ∈ chain, signedHash host.platform sign a = signedHash host.platform sign b →
    (sign a).payload = (sign b).payload

variable {peer : Host} {chain : List σ} {t : StatusDb}

def IssuedTo.objects (issued : IssuedTo cls host peer sign encode subject chain t) :
    List (StatusObject cls host.platform) :=
  chain.pmap (fun _ travels => travels.object) issued.travels

theorem IssuedTo.mem_objects {issued : IssuedTo cls host peer sign encode subject chain t}
    {o : StatusObject cls host.platform} (mem : o ∈ issued.objects) :
    ∃ status, ∃ inChain : status ∈ chain, o = (issued.travels status inChain).object := by
  obtain ⟨status, inChain, rfl⟩ := mem_pmap.mp mem
  exact ⟨status, inChain, rfl⟩

theorem IssuedTo.map_objects {β : Type} (issued : IssuedTo cls host peer sign encode subject chain t)
    {f : StatusObject cls host.platform → β} {g : σ → β}
    (same : ∀ status (travels : Travels cls host.platform sign encode host.instanceKey status),
      f travels.object = g status) : issued.objects.map f = chain.map g := by
  rw [IssuedTo.objects, map_pmap]
  simp only [same, pmap_eq_map]

theorem linked_objects (linked : Linked (signedHash platform sign) cls.priorStatusHash prior chain) {key : Key}
    (travels : ∀ status ∈ chain, Travels cls platform sign encode key status) :
    Linked StatusObject.hash (fun o => cls.priorStatusHash o.status) prior
      (chain.pmap (fun _ travels => Travels.object travels) travels) := by
  induction chain generalizing prior with
  | nil => trivial
  | cons status rest ih => exact ⟨linked.1, ih linked.2 fun other inRest => travels other (mem_cons_of_mem _ inRest)⟩

variable (issued : IssuedTo cls host peer sign encode subject chain t) (lawful : cls.Lawful)
  (about : ∀ status ∈ chain, cls.subject status = subject)
  (linked : Linked (signedHash host.platform sign) cls.priorStatusHash none chain)
include issued lawful about linked

theorem IssuedTo.row : cls.row ((chain.map (encode ∘ sign)).foldl (deliverStatus cls peer) t) subject =
      (offers cls.rank ((chain.map fun status => (signedHash host.platform sign status, status)).foldl cls.contend [])).map
        cls.rowOfItem := by
  have of : StatusesOf subject issued.objects := by
    refine ⟨fun o mem => ?_, fun a inA b inB same => ?_⟩
    · obtain ⟨status, inChain, rfl⟩ := issued.mem_objects mem
      exact about status inChain
    · obtain ⟨a, memberA, rfl⟩ := issued.mem_objects inA
      obtain ⟨b, memberB, rfl⟩ := issued.mem_objects inB
      exact issued.apart a memberA b memberB same
  have fresh : ∀ o ∈ issued.objects, t.db.hasObject o.hash = false := by
    intro o mem
    obtain ⟨status, inChain, rfl⟩ := issued.mem_objects mem
    exact issued.fresh status inChain
  have begins : CaughtUp peer subject t issued.objects [] t := by
    refine ⟨fun o mem => ?_, fun _ stored => .inl stored, nofun, issued.noRow⟩
    obtain ⟨status, inChain, rfl⟩ := issued.mem_objects mem
    exact ⟨host.instanceKey, issued.home status inChain, (issued.travels status inChain).verifies, issued.label status inChain⟩
  have final : CaughtUp peer subject t issued.objects issued.objects (deliverAll peer t issued.objects) :=
    begins.deliverAll issued.on lawful of (linked_objects linked issued.travels) fresh rfl
  have wires : deliverAll peer t issued.objects = (chain.map (encode ∘ sign)).foldl (deliverStatus cls peer) t := by
    have list : chain.map (encode ∘ sign) = issued.objects.map StatusObject.wire :=
      (issued.map_objects fun _ _ => rfl).symm
    rw [list, foldl_map]
    rfl
  have items : issued.objects.map StatusObject.item =
      chain.map fun status => (signedHash host.platform sign status, status) := issued.map_objects fun _ _ => rfl
  rw [← wires, final.row, items]

theorem IssuedTo.agrees {β : Type} (view : ρ → β)
    (tells : ∀ a b : Hash × σ, view (cls.rowOfItem a) = view (cls.rowOfItem b) → a.1 = b.1) :
    (cls.row ((chain.map (encode ∘ sign)).foldl (deliverStatus cls peer) t) subject).map view =
        (chain.getLast?.map fun status => cls.rowOf (signedHash host.platform sign status) status).map view ↔
      LastStands cls (chain.map fun status => (signedHash host.platform sign status, status)) := by
  have apart : ∀ a ∈ chain.map (fun status => (signedHash host.platform sign status, status)),
      ∀ b ∈ chain.map (fun status => (signedHash host.platform sign status, status)), a.1 = b.1 → a = b := by
    intro a inA b inB same
    obtain ⟨a, memberA, rfl⟩ := mem_map.mp inA
    obtain ⟨b, memberB, rfl⟩ := mem_map.mp inB
    have parsed := (issued.travels a memberA).parses
    rw [issued.apart a memberA b memberB same, (issued.travels b memberB).parses, Option.some.injEq] at parsed
    rw [parsed]
  have last : (chain.getLast?.map fun status => cls.rowOf (signedHash host.platform sign status) status) =
      (chain.map fun status => (signedHash host.platform sign status, status)).getLast?.map cls.rowOfItem := by
    rw [getLast?_map, Option.map_map]
    rfl
  rw [issued.row lawful about linked, last, ← offers_contending apart]
  constructor
  · intro same
    obtain ⟨-, isNone⟩ | ⟨best, held, isBest⟩ := offers_cases cls.rank
      ((chain.map fun status => (signedHash host.platform sign status, status)).foldl cls.contend [])
    · rw [isNone] at same ⊢
      cases final : (chain.map fun status => (signedHash host.platform sign status, status)).getLast? with
      | none => rfl
      | some item =>
        rw [final] at same
        cases same
    · rw [held] at same ⊢
      cases final : (chain.map fun status => (signedHash host.platform sign status, status)).getLast? with
      | none =>
        rw [final] at same
        cases same
      | some item =>
        rw [final] at same
        rw [apart best (mem_of_contending isBest.member) item (mem_of_getLast? final)
          (tells _ _ (Option.some.inj same))]
  · intro same
    rw [same]

end

/-- The arguments of a call for a user, and the clock that it reads. -/
structure UserStatusCall where
  status : UserStatusKind
  suspendedUntil : Option Nat
  reason : Option Text
  now : Nat

def UserStatusCall.make (host : Host) (subject : Key) (call : UserStatusCall) (prior : Option Hash) : UserStatus :=
  { subject, status := call.status, suspendedUntil := call.suspendedUntil, signingInstance := host.instanceDomain,
    reason := call.reason, createdAt := call.now, priorStatusHash := prior }

def issueUserStatuses (host : Host) (sign : UserStatus → SigningOutput) (subject : Key) (s : StatusDb) :
    List UserStatusCall → List SigningOutput × StatusDb
  | [] => ([], s)
  | call :: rest =>
    let (signed, s) := dispatchLocalUserStatus host sign s subject call.status call.suspendedUntil call.reason call.now
    let (more, s) := issueUserStatuses host sign subject s rest
    (signed :: more, s)

theorem issueUserStatuses_eq {host : Host} {sign : UserStatus → SigningOutput} {subject : Key} {s : StatusDb}
    {calls : List UserStatusCall} : issueUserStatuses host sign subject s calls =
      issueStatuses userStatusClass host sign subject s (calls.map (UserStatusCall.make host subject)) := by
  induction calls generalizing s with
  | nil => rfl
  | cons call rest ih =>
    simp only [issueUserStatuses, ih]
    rfl

structure ThreadStatusCall where
  status : ThreadStatusKind
  reason : Option Text
  now : Nat

def ThreadStatusCall.make (host : Host) (threadId : Uuid) (call : ThreadStatusCall) (prior : Option Hash) : ThreadStatus :=
  { threadId, status := call.status, signingInstance := host.instanceDomain, reason := call.reason,
    createdAt := call.now, priorStatusHash := prior }

def issueThreadStatuses (host : Host) (sign : ThreadStatus → SigningOutput) (threadId : Uuid) (s : StatusDb) :
    List ThreadStatusCall → List SigningOutput × StatusDb
  | [] => ([], s)
  | call :: rest =>
    let (signed, s) := dispatchLocalThreadStatus host sign s threadId call.status call.reason call.now
    let (more, s) := issueThreadStatuses host sign threadId s rest
    (signed.toList ++ more, s)

def HomedHere (s : StatusDb) (threadId : Uuid) : Prop :=
  ∃ row, joinedThread s.db threadId = some row ∧ row.homeInstance = none

theorem issueThreadStatuses_eq {host : Host} {sign : ThreadStatus → SigningOutput} {threadId : Uuid} {s : StatusDb}
    {calls : List ThreadStatusCall} (here : HomedHere s threadId) : issueThreadStatuses host sign threadId s calls =
      issueStatuses (threadStatusClass false) host sign threadId s (calls.map (ThreadStatusCall.make host threadId)) := by
  induction calls generalizing s with
  | nil => rfl
  | cons call rest ih =>
    obtain ⟨row, found, homed⟩ := here
    have dispatched : dispatchLocalThreadStatus host sign s threadId call.status call.reason call.now =
        Prod.map some id (issueStatus (threadStatusClass false) host sign s threadId (call.make host threadId)) := by
      rw [dispatchLocalThreadStatus, found]
      dsimp only
      rw [homed]
      rfl
    rw [issueThreadStatuses, dispatched]
    dsimp only [Prod.map, id]
    have stillHere : HomedHere (issueStatus (threadStatusClass false) host sign s threadId (call.make host threadId)).2
        threadId := ⟨row, found, homed⟩
    rw [ih stillHere]
    rfl

/--
An issuer keeps its last status, a peer the one of the latest reading: over any calls and any readings of the
clock, the two hold one status exactly when the last call outranks what it contends with.
-/
theorem issuer_and_peer_agree_iff {host peer : Host} {encode : SigningOutput → Bytes} :
    (∀ (sign : UserStatus → SigningOutput) (subject : Key) (calls : List UserStatusCall) (s t : StatusDb),
      let hash := signedHash host.platform sign
      let chain := statusChain hash none (calls.map (UserStatusCall.make host subject))
      s.userStatuses.find? (·.subject = subject) = none →
      IssuedTo userStatusClass host peer sign encode subject chain t →
      let issued := issueUserStatuses host sign subject s calls
      let received := (issued.1.map encode).foldl (deliverStatus userStatusClass peer) t
      ((received.userStatuses.find? (·.subject = subject)).map (fun row => (row.status, row.currentStatusHash)) =
          (issued.2.userStatuses.find? (·.subject = subject)).map (fun row => (row.status, row.currentStatusHash)) ↔
        LastStands userStatusClass (chain.map fun status => (hash status, status)))) ∧
    ∀ (sign : ThreadStatus → SigningOutput) (threadId : Uuid) (calls : List ThreadStatusCall) (s t : StatusDb),
      let hash := signedHash host.platform sign
      let chain := statusChain hash none (calls.map (ThreadStatusCall.make host threadId))
      HomedHere s threadId → s.threadStatuses.find? (·.threadId = threadId) = none →
      IssuedTo (threadStatusClass true) host peer sign encode threadId chain t →
      let issued := issueThreadStatuses host sign threadId s calls
      let received := (issued.1.map encode).foldl (deliverStatus (threadStatusClass true) peer) t
      ((received.threadStatuses.find? (·.threadId = threadId)).map (fun row => (row.status, row.currentStatusHash)) =
          (issued.2.threadStatuses.find? (·.threadId = threadId)).map (fun row => (row.status, row.currentStatusHash)) ↔
        LastStands (threadStatusClass true) (chain.map fun status => (hash status, status))) := by
  constructor
  · intro sign subject calls s t hash chain noRow issuedTo issued received
    have about : ∀ call ∈ calls.map (UserStatusCall.make host subject), ∀ prior,
        userStatusClass.subject (call prior) = subject := by
      intro call mem prior
      obtain ⟨call, -, rfl⟩ := mem_map.mp mem
      rfl
    have linked : Linked hash userStatusClass.priorStatusHash none chain := by
      refine linked_statusChain fun call mem prior => ?_
      obtain ⟨call, -, rfl⟩ := mem_map.mp mem
      rfl
    obtain ⟨outputs, row⟩ : issued.1 = chain.map sign ∧ userStatusClass.row issued.2 subject = _ := by
      dsimp only [issued]
      rw [issueUserStatuses_eq]
      exact issueStatuses_fresh userStatusClass_lawful about noRow
    have agrees := issuedTo.agrees userStatusClass_lawful (subject_statusChain about) linked
      (fun row => (row.status, row.currentStatusHash)) fun _ _ same => (Prod.mk.inj same).2
    rw [← row, ← map_map, ← outputs] at agrees
    exact agrees
  · intro sign threadId calls s t hash chain here noRow issuedTo issued received
    have about : ∀ call ∈ calls.map (ThreadStatusCall.make host threadId), ∀ prior,
        (threadStatusClass false).subject (call prior) = threadId := by
      intro call mem prior
      obtain ⟨call, -, rfl⟩ := mem_map.mp mem
      rfl
    have linked : Linked hash (threadStatusClass true).priorStatusHash none chain := by
      refine linked_statusChain fun call mem prior => ?_
      obtain ⟨call, -, rfl⟩ := mem_map.mp mem
      rfl
    obtain ⟨outputs, row⟩ : issued.1 = chain.map sign ∧ (threadStatusClass true).row issued.2 threadId = _ := by
      dsimp only [issued]
      rw [issueThreadStatuses_eq here]
      exact issueStatuses_fresh (threadStatusClass_lawful false) about noRow
    have agrees := issuedTo.agrees (threadStatusClass_lawful true) (subject_statusChain about) linked
      (fun row => (row.status, row.currentStatusHash)) fun _ _ same => (Prod.mk.inj same).2
    rw [← map_map, ← outputs] at agrees
    exact Iff.trans (Eq.congr rfl (congrArg _ row)) agrees

def wardHome (table : List SignedPayload) : Host where
  toAppState := { AppState.ofTable table with instanceKey := 8 }
  instanceDomain := "home"

def wardHomeDb : StatusDb where
  db := {
    users := [⟨1, "ada", "ada", .invite, none, false⟩]
    threads := [⟨5, "hello", 1, "town", "", 0, "", false, none, none, none⟩] }

def signAs (i : UInt8) : SigningOutput :=
  ⟨[i], List.replicate 64 0⟩

def signWardUser (status : UserStatus) : SigningOutput :=
  signAs (if status.createdAt = 1000 then 0 else 1)

def signWardThread (status : ThreadStatus) : SigningOutput :=
  signAs (if status.createdAt = 1000 then 2 else 3)

theorem ward_issuedTo :
    IssuedTo userStatusClass (wardHome wardTable) ward signWardUser SigningOutput.payload 1 [wardBan.status, wardLift.status]
      wardDb ∧
    IssuedTo (threadStatusClass true) (wardHome wardTable) ward signWardThread SigningOutput.payload 5
      [wardLock.status, wardOpen.status] wardDb := by
  constructor
  · exact ⟨rfl, forall_mem_pair.mpr ⟨⟨rfl, rfl, by decide⟩, ⟨rfl, rfl, by decide⟩⟩, forall_mem_pair.mpr ⟨rfl, rfl⟩,
      by decide, by decide, rfl, by decide⟩
  · exact ⟨rfl, forall_mem_pair.mpr ⟨⟨rfl, rfl, by decide⟩, ⟨rfl, rfl, by decide⟩⟩, forall_mem_pair.mpr ⟨rfl, rfl⟩,
      by decide, by decide, rfl, by decide⟩

/-- With a clock that goes forward, the peer follows the lift of a ban and of a lock. -/
theorem ward_follows :
    (let issued := issueUserStatuses (wardHome wardTable) signWardUser 1 wardHomeDb
        [⟨.banned, none, none, 1000⟩, ⟨.active, none, none, 2000⟩]
      let received := (issued.1.map SigningOutput.payload).foldl (deliverStatus userStatusClass ward) wardDb
      (received.userStatuses.find? (·.subject = 1)).map (fun row => (row.status, row.currentStatusHash)) =
        (issued.2.userStatuses.find? (·.subject = 1)).map (fun row => (row.status, row.currentStatusHash))) ∧
    (let issued := issueThreadStatuses (wardHome wardTable) signWardThread 5 wardHomeDb
        [⟨.locked, none, 1000⟩, ⟨.open, none, 2000⟩]
      let received := (issued.1.map SigningOutput.payload).foldl (deliverStatus (threadStatusClass true) ward) wardDb
      (received.threadStatuses.find? (·.threadId = 5)).map (fun row => (row.status, row.currentStatusHash)) =
        (issued.2.threadStatuses.find? (·.threadId = 5)).map (fun row => (row.status, row.currentStatusHash))) := by
  constructor
  · refine (issuer_and_peer_agree_iff.1 signWardUser 1 [⟨.banned, none, none, 1000⟩, ⟨.active, none, none, 2000⟩]
      wardHomeDb wardDb rfl ward_issuedTo.1).mpr ?_
    intro last isLast
    cases isLast
    exact ⟨by decide, by decide⟩
  · refine (issuer_and_peer_agree_iff.2 signWardThread 5 [⟨.locked, none, 1000⟩, ⟨.open, none, 2000⟩]
      wardHomeDb wardDb ⟨_, rfl, rfl⟩ rfl ward_issuedTo.2).mpr ?_
    intro last isLast
    cases isLast
    exact ⟨by decide, by decide⟩

/-- The same calls with a clock that steps back between them. -/
def backTable : List SignedPayload :=
  [.userStatus ⟨1, .banned, none, "home", none, 2000, none⟩, .userStatus ⟨1, .active, none, "home", none, 1000, some 1⟩]

def signBack (status : UserStatus) : SigningOutput :=
  signAs (if status.createdAt = 2000 then 0 else 1)

/-- The issuer has lifted the ban, and the peer that received the lift keeps it. -/
theorem peer_keeps_lifted_ban :
    let peer : Host := ⟨AppState.ofTable backTable, "here"⟩
    let issued := issueUserStatuses (wardHome backTable) signBack 1 wardHomeDb
      [⟨.banned, none, none, 2000⟩, ⟨.active, none, none, 1000⟩]
    let received := (issued.1.map SigningOutput.payload).foldl (deliverStatus userStatusClass peer) wardDb
    IssuedTo userStatusClass (wardHome backTable) peer signBack SigningOutput.payload 1
      [⟨1, .banned, none, "home", none, 2000, none⟩, ⟨1, .active, none, "home", none, 1000, some 1⟩] wardDb ∧
    issued.2.userStatuses.map (·.status) = [.active] ∧ received.userStatuses.map (·.status) = [.banned] := by
  exact ⟨⟨rfl, forall_mem_pair.mpr ⟨⟨rfl, rfl, by decide⟩, ⟨rfl, rfl, by decide⟩⟩, forall_mem_pair.mpr ⟨rfl, rfl⟩,
    by decide, by decide, rfl, by decide⟩, by decide +kernel, by decide +kernel⟩

end Prismoire
