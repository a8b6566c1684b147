import Prismoire.ChainConvergence
import Prismoire.EdgeFeed
import Prismoire.HomeChains

namespace Prismoire

open Lib List Db

variable {db : Db} {platform : Platform} {source target : Key} {i : Nat} {answer : EdgeResult × Option EdgeRecovery}

namespace EdgeChain

variable {chain : EdgeChain platform source target} {state : AppState} {l : Ledger platform}

/-- An instance that knows both endpoints and none of the edges. -/
structure FreshPeer (chain : EdgeChain platform source target) (db : Db) : Prop where
  pristine : chain.Pristine db
  sourceKnown : db.hasUser source = true
  targetKnown : db.hasUser target = true

/-- Nothing is stored early at a peer that knows both endpoints. -/
def never (_ : Nat) : Prop := False

/-- A state of the peer on its chain: the ledger it tracks holds a prefix and a buffer, and no stored rest. -/
structure Mends (chain : EdgeChain platform source target) (state : AppState) (l : Ledger platform) (db : Db) :
    Prop where
  tracks : Tracks source target chain.edges state l db
  holds : chain.Holds never l
  waiting : l.Waiting

theorem swept_empty (chain : EdgeChain platform source target) : chain.Swept never ⟨[], [], []⟩ := by
  refine ⟨⟨rfl, ?_, by simp⟩, rfl, by simp, fun _ early => early⟩
  intro i bound
  simp [Ledger.holds, never]

theorem FreshPeer.mends (fresh : chain.FreshPeer db) (state : AppState) : chain.Mends state ⟨[], [], []⟩ db := by
  refine ⟨⟨(fresh.pristine.parked state).rep, fresh.sourceKnown, fresh.targetKnown, fresh.pristine.noPending,
    by simp, by simp, by simp, nodup_nil⟩, chain.swept_empty.holds, chain.swept_empty.waiting⟩

theorem Mends.deliver (mends : chain.Mends state l db) (same : state.platform = platform)
    (bound : i < chain.edges.length) (peer : Key) :
    chain.Mends state (l.deliver chain.edges[i]) (deliverEdge state db (chain.edges[i]).wire peer) := by
  obtain ⟨tracks, waiting⟩ :=
    mends.tracks.deliver chain.forkFree same (getElem_mem bound) mends.waiting peer
  exact ⟨tracks, (mends.holds.deliver mends.waiting bound).holds, waiting⟩

theorem FreshPeer.complete_iff (fresh : chain.FreshPeer db) (same : state.platform = platform)
    (deliveries : chain.Deliveries) :
    ∃ l, chain.Mends state l (chain.deliverAll state db deliveries) ∧ (l.active.length = chain.edges.length ↔
        chain.RevocationsEarly never ∧ ∀ i, i ∈ deliveries.map Prod.fst) := by
  have start := fresh.mends state
  have swept := chain.swept_empty
  refine ⟨_, ⟨tracks_deliverAll same deliveries start.tracks start.waiting, ?_, ?_⟩, ?_⟩
  · rw [foldl_deliver]
    exact (swept.holds.ledgerAt swept.waiting _ _).1
  · rw [foldl_deliver]
    exact (swept.holds.ledgerAt swept.waiting _ _).2
  · rw [foldl_deliver]
    constructor
    · intro complete
      refine ⟨swept.holds.revocationsEarly swept.waiting swept.inside complete, ?_⟩
      intro i
      have landed : i.val < chain.landedAt ⟨[], [], []⟩ (deliveries.map Prod.fst)
          (deliveries.map Prod.fst).length := by
        rw [landedAt, complete]
        exact i.isLt
      obtain ⟨p, -, delivered⟩ := swept.holds.delivered_before swept.waiting swept.nothing i.isLt
        (Nat.zero_le _) (.inl landed)
      exact mem_of_getElem? delivered
    · rintro ⟨calm, all⟩
      refine swept.complete (fun i bound => .inr (all ⟨i, bound⟩)) calm ⟨fun _ => 0, ?_⟩
      intro z bound stranded
      exact stranded.1.elim

theorem Mends.projected_iff (mends : chain.Mends state l db)
    (bound : i + 1 = chain.edges.length) :
    db.hasEdge (chain.edges[i]).hash = true ↔ l.active.length = chain.edges.length := by
  have size := mends.holds.size
  rw [mends.tracks.rep.hasEdge_iff, mends.holds.inForce (by omega)]
  omega

theorem Mends.answers (mends : chain.Mends state l db) (same : state.platform = platform)
    (calm : ∀ e ∈ chain.edges, e.neutral = false) (bound : i < chain.edges.length) (peer : Key) :
    ∃ result, applyOneEdgeInner state db (chain.edges[i]).wire peer = .ok result := by
  subst same
  have mem : chain.edges[i] ∈ chain.edges := getElem_mem bound
  have steady : ∀ e ∈ chain.edges, e.edge.stance ≠ .neutral := by
    intro e inChain neutral
    have := calm e inChain
    simp [SignedEdge.neutral, neutral] at this
  have calmBuffer : CalmBuffer state.platform db := by
    intro row inBuffer edge parses
    rw [mends.tracks.pending] at inBuffer
    obtain ⟨e, isBuffered, rfl⟩ := mem_map.mp inBuffer
    have isEdge : e.edge = edge := by
      have := e.parses.symm.trans parses
      simpa using this
    exact isEdge ▸ steady e (mends.tracks.bufferedMem e isBuffered)
  simp only [applyOneEdgeInner, (chain.edges[i]).decodes]
  cases found : db.signedObjects.find? (·.canonicalHash = state.platform.sha256 (chain.edges[i]).payload) with
  | some row =>
    have named := find?_some found
    have present : db.hasObject (chain.edges[i]).hash = true :=
      any_eq_true.mpr ⟨row, mem_of_find?_eq_some found, named⟩
    have projected : db.hasEdge (chain.edges[i]).hash = true := by
      rw [mends.tracks.rep.hasEdge_iff]
      rcases (mends.tracks.rep.hasObject_iff mem).mp present with inForce | stored
      · exact inForce
      · exact ((mends.holds.archived i bound).mp stored).1.elim
    rw [SignedEdge.hash] at projected
    simp only [projected, if_true]
    split <;> exact ⟨_, rfl⟩
  | none =>
    obtain ⟨result, received⟩ := receiveEdge_calm (state.platform.sha256 (chain.edges[i]).payload)
      (chain.edges[i]).signature peer (chain.edges[i]).parses (steady _ mem) calmBuffer
    simp only [(chain.edges[i]).parses, (chain.edges[i]).verified, if_true, received]
    exact ⟨_, rfl⟩

theorem deliverAll_append (db : Db) (first second : chain.Deliveries) : chain.deliverAll state db (first ++ second) =
      chain.deliverAll state (chain.deliverAll state db first) second :=
  foldl_append

theorem deliverEdge_of_ok {wire : Bytes} {peer : Key} {after : Db}
    (run : applyOneEdgeInner state db wire peer = .ok (answer, after)) : deliverEdge state db wire peer = after := by
  simp only [deliverEdge, run]

theorem Mends.feed (mends : chain.Mends state l db) (same : state.platform = platform)
    (home : Key) (page : List (Fin chain.edges.length)) :
    ∃ done : List (Fin chain.edges.length), done <+: page ∧
      (feedObjects state home db (page.map fun i => (chain.edges[i.val]).wire)).2 =
        chain.deliverAll state db (done.map fun i => (i, home)) ∧
      ((∀ e ∈ chain.edges, e.neutral = false) → done = page) ∧
      PeopleKept db (feedObjects state home db (page.map fun i => (chain.edges[i.val]).wire)).2 := by
  induction page generalizing db l with
  | nil => exact ⟨[], prefix_rfl, rfl, fun _ => rfl, ⟨rfl, rfl⟩⟩
  | cons i page ih =>
    simp only [map_cons, feedObjects]
    cases run : applyOneEdgeInner state db (chain.edges[i.val]).wire home with
    | error failure =>
      refine ⟨[], by simp, rfl, ?_, ⟨rfl, rfl⟩⟩
      intro calm
      obtain ⟨result, answered⟩ := mends.answers same calm i.isLt home
      rw [run] at answered
      cases answered
    | ok result =>
      obtain ⟨answer, after⟩ := result
      have next := mends.deliver same i.isLt home
      rw [deliverEdge_of_ok run] at next
      obtain ⟨done, isPrefix, fed, whole, people⟩ := ih next
      refine ⟨i :: done, by simpa using isPrefix, ?_, fun calm => by rw [whole calm],
        (applyOneEdgeInner_people run).trans people⟩
      simp only [fed, deliverAll, map_cons, foldl_cons, deliverEdge_of_ok run]

end EdgeChain

variable {trail : List Signing} {user : Key}

section Trail

/-- What the signing layer and the wire owe for an edge: it is read back and verifies, and its lengths fit
the heads of the wire. -/
structure Genuine (platform : Platform) (cbor : Ciborium) (m : SignedMutation) : Prop where
  parses : platform.parse m.payload = some (.trustEdge m.edge)
  verified : signatureOk platform m.payload m.signature m.edge.fromKey = true
  small : m.payload.length < 2 ^ 64
  short : m.signature.length < 2 ^ 64
  framed : (encodeSignedObject cbor m.payload m.signature).length < 2 ^ 64

variable {cbor : Ciborium}

/-- The edge of a call as its home sends it. -/
def Signing.signedEdge (framing : platform.decodeSignedObject = decodeSignedObject cbor) (faithful : cbor.Faithful)
    (t : Signing) (genuine : Genuine platform cbor t.2) : SignedEdge platform where
  wire := encodeSignedObject cbor t.2.payload t.2.signature
  payload := t.2.payload
  signature := t.2.signature
  edge := t.2.edge
  decodes := by
    rw [framing]
    exact decodeSignedObject_encode faithful genuine.small genuine.short
  parses := genuine.parses
  verified := genuine.verified

theorem linked_congr {α β η : Type} {hash : α → η} {prior : α → Option η} {hash' : β → η} {prior' : β → Option η}
    {start : Option η} {items : List α} {items' : List β} (linked : Linked hash prior start items)
    (hashes : items.map hash = items'.map hash') (priors : items.map prior = items'.map prior') :
    Linked hash' prior' start items' := by
  induction items generalizing start items' with
  | nil =>
    cases items' with
    | nil => trivial
    | cons item' items' => simp at hashes
  | cons item items ih =>
    cases items' with
    | nil => simp at hashes
    | cons item' items' =>
      simp only [map_cons, List.cons.injEq] at hashes priors
      refine ⟨priors.1 ▸ linked.1, ?_⟩
      rw [← hashes.1]
      exact ih linked.2 hashes.2 priors.2

theorem map_pmap_eq {α β γ : Type} {p : α → Prop} {make : ∀ a, p a → β} {column : β → γ} {column' : α → γ}
    {items : List α} (holds : ∀ a ∈ items, p a)
    (same : ∀ a ∈ items, ∀ h : p a, column (make a h) = column' a) :
    (items.pmap make holds).map column = items.map column' := by
  induction items with
  | nil => rfl
  | cons a items ih =>
    rw [pmap_cons, map_cons, map_cons, same a (by simp),
      ih (fun b mem => holds b (by simp [mem])) fun b mem => same b (by simp [mem])]

def trailChain (framing : platform.decodeSignedObject = decodeSignedObject cbor) (faithful : cbor.Faithful)
    (genuine : ∀ t ∈ trail, Genuine platform cbor t.2) (kept : Kept platform user target trail db)
    (linked : Linked Signing.hash Signing.prior none trail) : EdgeChain platform user target where
  edges := trail.pmap (fun t g => t.signedEdge framing faithful g) genuine
  pair := by
    intro e mem
    obtain ⟨t, inTrail, rfl⟩ := mem_pmap.mp mem
    exact ⟨(kept.made t inTrail).source, (kept.made t inTrail).target⟩
  linked := by
    refine linked_congr linked (Eq.symm ?_) (Eq.symm ?_)
    · exact map_pmap_eq genuine fun t inTrail _ => (kept.made t inTrail).hashed.symm
    · exact map_pmap_eq genuine fun t _ _ => rfl
  distinct := by
    have hashes : (trail.pmap (fun t g => t.signedEdge framing faithful g) genuine).map (·.hash) =
        trail.map Signing.hash :=
      map_pmap_eq genuine fun t inTrail _ => (kept.made t inTrail).hashed.symm
    rw [hashes]
    exact kept.distinct

variable (framing : platform.decodeSignedObject = decodeSignedObject cbor) (faithful : cbor.Faithful)
  (genuine : ∀ t ∈ trail, Genuine platform cbor t.2) (kept : Kept platform user target trail db)
  (linked : Linked Signing.hash Signing.prior none trail)

theorem trailChain_length : (trailChain framing faithful genuine kept linked).edges.length = trail.length := by
  simp [trailChain]

theorem trailChain_getElem (bound : i < trail.length) :
    (trailChain framing faithful genuine kept linked).edges.get ⟨i, by rw [trailChain_length]; exact bound⟩ =
      trail[i].signedEdge framing faithful (genuine _ (getElem_mem bound)) := by
  simp [trailChain]

theorem trailChain_sent {rows : List ChainRow} (sent : ∀ row ∈ rows, ∃ t ∈ trail, row = t.chainRow platform) :
    ∃ page : List (Fin (trailChain framing faithful genuine kept linked).edges.length),
      rows.map (fun row => encodeSignedObject cbor row.payload row.signature) =
        page.map (fun i => ((trailChain framing faithful genuine kept linked).edges[i.val]).wire) ∧
      rows = page.map fun i =>
        (trail.get (i.cast (trailChain_length framing faithful genuine kept linked))).chainRow platform := by
  induction rows with
  | nil => exact ⟨[], rfl, rfl⟩
  | cons row rows ih =>
    obtain ⟨page, wires, places⟩ := ih fun other mem => sent other (by simp [mem])
    obtain ⟨t, inTrail, rfl⟩ := sent row (by simp)
    obtain ⟨i, bound, rfl⟩ := mem_iff_getElem.mp inTrail
    have inside : i < (trailChain framing faithful genuine kept linked).edges.length := by
      rw [trailChain_length]
      exact bound
    refine ⟨⟨i, inside⟩ :: page, ?_, ?_⟩
    · rw [map_cons, map_cons, wires]
      congr 1
      exact congrArg SignedEdge.wire (trailChain_getElem framing faithful genuine kept linked bound).symm
    · rw [map_cons, ← places]
      rfl

end Trail

variable {newest : Signing} {older : List Signing}

section Page

/-- The home can serve all that the newest edge needs: nothing was revoked, and the other edges are within
the first page. -/
def Servable (platform : Platform) (older : List Signing) (newest : Signing) : Prop :=
  (∀ t ∈ older ++ [newest], t.1.stance ≠ .neutral) ∧ ((older ++ [newest]).length ≤ maxEdgeBackfillPage ∨
      (older ++ [newest]).length = maxEdgeBackfillPage + 1 ∧
        ∀ t ∈ older, (t.place platform).before (newest.place platform))

theorem Kept.chainRow_inj {trail : List Signing} (kept : Kept platform user target trail db) {t s : Signing}
    (inT : t ∈ trail) (inS : s ∈ trail) (same : t.chainRow platform = s.chainRow platform) : t = s :=
  inj_on_of_nodup_map kept.distinct inT inS (congrArg ChainRow.canonicalHash same)

theorem Kept.newest_notMem (kept : Kept platform user target (older ++ [newest]) db) : newest ∉ older := by
  intro mem
  have distinct := kept.distinct
  rw [map_append, nodup_append] at distinct
  exact distinct.2.2 _ (mem_map_of_mem mem) _ (by simp) rfl

theorem Kept.page_covers_iff (kept : Kept platform user target (older ++ [newest]) db)
    (calm : ∀ t ∈ older ++ [newest], t.1.stance ≠ .neutral) :
    (∀ t ∈ older, t.chainRow platform ∈ (chainRows db user target none).take maxEdgeBackfillPage) ↔
      ((older ++ [newest]).length ≤ maxEdgeBackfillPage ∨ (older ++ [newest]).length = maxEdgeBackfillPage + 1 ∧
          ∀ t ∈ older, (t.place platform).before (newest.place platform)) := by
  obtain ⟨perm, ascending⟩ := kept.live calm
  have isNewest : newest ∈ older ++ [newest] := by simp
  have others : ∀ holds : ChainRow → Prop, (∀ row ∈ chainRows db user target none,
      row ≠ newest.chainRow platform → holds row) ↔ ∀ t ∈ older, holds (t.chainRow platform) := by
    intro holds
    constructor
    · intro all t inOlder
      have inTrail : t ∈ older ++ [newest] := mem_append_left _ inOlder
      refine all _ (perm.mem_iff.mpr (mem_map_of_mem inTrail)) ?_
      intro same
      exact kept.newest_notMem (kept.chainRow_inj inTrail isNewest same ▸ inOlder)
    · intro all row mem other
      obtain ⟨t, inTrail, rfl⟩ := mem_map.mp (perm.mem_iff.mp mem)
      rcases mem_concat.mp inTrail with inOlder | last
      · exact all t inOlder
      · exact absurd (by rw [last]) other
  have inRows : newest.chainRow platform ∈ chainRows db user target none :=
    perm.mem_iff.mpr (mem_map_of_mem isNewest)
  have size : (chainRows db user target none).length = (older ++ [newest]).length := by
    rw [perm.length_eq, length_map]
  have asymm : ∀ a b : ChainRow, a.cursor.before b.cursor → ¬ b.cursor.before a.cursor :=
    fun _ _ => Cursor.before_asymm _ _
  have taken := forall_mem_take_iff asymm ascending inRows maxEdgeBackfillPage
  rw [others, others, size] at taken
  exact taken

end Page

section Steps

inductive PeerStep where
  | push (arrivedFrom : Key)
  | backfill

def PeerStep.run (cbor : Ciborium) (state : AppState) (instances : Key → Option Db) (source target : Key)
    (wire : Bytes) (db : Db) : PeerStep → Db
  | .push arrivedFrom => applyOneEdge cbor state instances db wire arrivedFrom
  | .backfill => (requestEdgePredecessor cbor state instances db source target).2

variable {after : Db} {peer from_ to_ : Key} {prior : Hash}

theorem resolveSourceHome_kept {db : Db} (kept : PeopleKept db after) (source : Key) :
    resolveSourceHome after source = resolveSourceHome db source := by
  simp only [resolveSourceHome, user?, kept.users, kept.homes]

variable {chain : EdgeChain platform source target} {cbor : Ciborium} {state : AppState} {instances : Key → Option Db}
    {start : Db} {home : Key} {page : List (Fin chain.edges.length)} {last : Fin chain.edges.length}
    {deliveries : chain.Deliveries}

/-- What a peer has been through: deliveries of the last edge and of edges of the page. -/
structure Mended (state : AppState) (start : Db) (page : List (Fin chain.edges.length))
    (last : Fin chain.edges.length) (deliveries : chain.Deliveries) (db : Db) : Prop where
  reached : db = chain.deliverAll state start deliveries
  drawn : ∀ d ∈ deliveries, d.1 = last ∨ d.1 ∈ page
  people : PeopleKept start db

theorem Mended.feed (mended : Mended state start page last deliveries db) (fresh : chain.FreshPeer start)
    (same : state.platform = platform)
    (asks : ∀ db, resolveSourceHome db source = some home →
      requestEdgePredecessor cbor state instances db source target =
        feedObjects state home db (page.map fun i => (chain.edges[i.val]).wire))
    (resolved : resolveSourceHome start source = some home) :
    ∃ more, Mended state start page last (deliveries ++ more)
        (requestEdgePredecessor cbor state instances db source target).2 ∧
      ((∀ e ∈ chain.edges, e.neutral = false) → ∀ i ∈ page, i ∈ more.map Prod.fst) := by
  rw [asks db ((resolveSourceHome_kept mended.people source).trans resolved)]
  obtain ⟨l, mends, -⟩ := fresh.complete_iff same deliveries
  rw [← mended.reached] at mends
  obtain ⟨done, isPrefix, fed, whole, people⟩ := mends.feed same home page
  refine ⟨done.map fun i => (i, home), ⟨?_, ?_, mended.people.trans people⟩, ?_⟩
  · rw [fed, EdgeChain.deliverAll_append, ← mended.reached]
  · intro d mem
    rcases mem_append.mp mem with old | new
    · exact mended.drawn d old
    · obtain ⟨i, inDone, rfl⟩ := mem_map.mp new
      exact .inr (isPrefix.subset inDone)
  · intro calm i inPage
    rw [whole calm, map_map]
    exact mem_map.mpr ⟨i, inPage, rfl⟩

theorem Mended.deliver (mended : Mended state start page last deliveries db) {arrivedFrom : Key}
    
    (run : applyOneEdgeInner state db (chain.edges[last.val]).wire arrivedFrom = .ok (answer, after)) :
    Mended state start page last (deliveries ++ [(last, arrivedFrom)]) after := by
  refine ⟨?_, ?_, mended.people.trans (applyOneEdgeInner_people run)⟩
  · rw [EdgeChain.deliverAll_append, ← mended.reached]
    exact (EdgeChain.deliverEdge_of_ok run).symm
  · exact forall_mem_concat.mpr ⟨mended.drawn, .inl rfl⟩

theorem recordEndpointMissing_no_predecessor {edge : TrustEdge} {hash : Hash} {signature payload : Bytes} :
    (recordEndpointMissing db edge hash signature payload peer).1 ≠ some (.predecessor from_ to_ prior) := by
  unfold recordEndpointMissing
  dsimp only
  split <;> split <;> simp

theorem reattempt_no_predecessor {hash : Hash} :
    reattemptUnprojectedEdge state db hash peer ≠ .ok (some (.predecessor from_ to_ prior), after) := by
  intro run
  unfold reattemptUnprojectedEdge at run
  split at run
  · cases run
  · split at run
    · cases run
    · split at run
      · obtain ⟨⟨outcome, mid⟩, -, rest⟩ := bind_ok.mp run
        cases outcome with
        | projected =>
          obtain ⟨last, -, returned⟩ := bind_ok.mp rest
          cases returned
        | endpointMissing =>
          exact recordEndpointMissing_no_predecessor (congrArg Prod.fst (Except.ok.inj rest))
        | chainFork => cases rest
        | deferred => cases rest
      · cases run

theorem predecessor_of_edge {e : SignedEdge state.platform} {result : EdgeResult}
    (run : applyOneEdgeInner state db e.wire peer = .ok ((result, some (.predecessor from_ to_ prior)), after)) :
    from_ = e.edge.fromKey ∧ to_ = e.edge.toKey := by
  simp only [applyOneEdgeInner, e.decodes] at run
  split at run
  · split at run
    · cases run
    · split at run
      · cases run
      · obtain ⟨⟨recovery, mid⟩, reattempted, returned⟩ := bind_ok.mp run
        cases returned
        exact absurd reattempted reattempt_no_predecessor
  · simp only [e.parses, e.verified, if_true] at run
    obtain ⟨⟨status, recovery, mid⟩, received, returned⟩ := bind_ok.mp run
    cases returned
    unfold receiveEdge at received
    obtain ⟨⟨outcome, tried⟩, -, rest⟩ := bind_ok.mp received
    cases outcome with
    | projected =>
      obtain ⟨last, -, returned⟩ := bind_ok.mp rest
      cases returned
    | endpointMissing =>
      exact absurd (congrArg (fun r => r.2.1) (Except.ok.inj rest)) recordEndpointMissing_no_predecessor
    | chainFork => cases rest
    | deferred =>
      dsimp only at rest
      split at rest
      · cases rest
      · have recovered := congrArg (fun r => r.2.1) (Except.ok.inj rest)
        simp only at recovered
        split at recovered
        · cases recovered
          exact ⟨rfl, rfl⟩
        · cases recovered

variable (cbor state instances page) in
def Asks (home : Key) : Prop :=
  ∀ db, resolveSourceHome db source = some home → requestEdgePredecessor cbor state instances db source target =
      feedObjects state home db (page.map fun i => (chain.edges[i.val]).wire)

section

variable (mended : Mended state start page last deliveries db) (fresh : chain.FreshPeer start)
  (same : state.platform = platform) (asks : Asks cbor state instances page home)
  (resolved : resolveSourceHome start source = some home)
include mended fresh same asks resolved

theorem Mended.push (arrivedFrom : Key) : ∃ more, Mended state start page last (deliveries ++ more)
        (applyOneEdge cbor state instances db (chain.edges[last.val]).wire arrivedFrom) ∧
      ((∀ e ∈ chain.edges, e.neutral = false) → last ∈ more.map Prod.fst) := by
  subst same
  unfold applyOneEdge
  split
  · rename_i failure run
    refine ⟨[], by simpa using mended, ?_⟩
    intro calm
    obtain ⟨l, mends, -⟩ := fresh.complete_iff rfl deliveries
    rw [← mended.reached] at mends
    obtain ⟨result, answered⟩ := mends.answers rfl calm last.isLt arrivedFrom
    rw [run] at answered
    cases answered
  · rename_i from_ to_ prior after run
    obtain ⟨rfl, rfl⟩ := predecessor_of_edge run
    obtain ⟨isSource, isTarget⟩ := chain.pair _ (getElem_mem last.isLt)
    rw [isSource, isTarget]
    obtain ⟨more, fed, -⟩ := (mended.deliver run).feed fresh rfl asks resolved
    exact ⟨[(last, arrivedFrom)] ++ more, by rwa [← append_assoc], fun _ => by simp⟩
  · rename_i run
    exact ⟨_, mended.deliver run, fun _ => by simp⟩

theorem Mended.step (step : PeerStep) : ∃ more, Mended state start page last (deliveries ++ more)
      (step.run cbor state instances source target (chain.edges[last.val]).wire db) := by
  cases step with
  | backfill =>
    obtain ⟨more, fed, -⟩ := mended.feed fresh same asks resolved
    exact ⟨more, fed⟩
  | push arrivedFrom =>
    obtain ⟨more, pushed, -⟩ := mended.push fresh same asks resolved arrivedFrom
    exact ⟨more, pushed⟩

theorem Mended.steps (steps : List PeerStep) : ∃ more, Mended state start page last (deliveries ++ more)
      (steps.foldl (PeerStep.run cbor state instances source target (chain.edges[last.val]).wire) db) := by
  induction steps generalizing deliveries db with
  | nil => exact ⟨[], by simpa using mended⟩
  | cons step steps ih =>
    obtain ⟨more, stepped⟩ := mended.step fresh same asks resolved step
    obtain ⟨rest, stepped⟩ := ih stepped
    exact ⟨more ++ rest, by rwa [← append_assoc]⟩

end

theorem EdgeChain.FreshPeer.first_push (fresh : chain.FreshPeer db) (same : state.platform = platform)
    (follows : 0 < last.val) (arrivedFrom : Key) :
    ∃ result prior after, applyOneEdgeInner state db (chain.edges[last.val]).wire arrivedFrom =
      .ok ((result, some (.predecessor source target prior)), after) := by
  subst same
  obtain ⟨isSource, isTarget⟩ := chain.pair _ (getElem_mem last.isLt)
  obtain ⟨prior, isPrior⟩ := Option.isSome_iff_exists.mp ((chain.prior_isSome last.isLt).mpr follows)
  have named : (chain.edges[last.val]).edge.priorEdgeHash = some prior := isPrior
  have unknown : db.signedObjects.find?
      (·.canonicalHash = state.platform.sha256 (chain.edges[last.val]).payload) = none := by
    rw [find?_eq_none]
    intro row stored
    rw [decide_eq_true_eq]
    exact (fresh.pristine.objects row stored).2 _ (getElem_mem last.isLt)
  have deferred : tryProjectTrustEdge state db (chain.edges[last.val]).edge
      (state.platform.sha256 (chain.edges[last.val]).payload) (chain.edges[last.val]).signature
      (chain.edges[last.val]).payload = .ok (.deferred, db) := by
    simp [tryProjectTrustEdge, isSource, isTarget, fresh.sourceKnown, fresh.targetKnown, hasEdge,
      edgeForked, hasPairEdge, fresh.pristine.noEdges, named]
  have queued : ∃ after, enqueuePendingTrustEdge db (chain.edges[last.val]).edge
      (state.platform.sha256 (chain.edges[last.val]).payload) (chain.edges[last.val]).payload
      (chain.edges[last.val]).signature = (true, after) := by
    simp [enqueuePendingTrustEdge, named, fresh.pristine.noPending]
  obtain ⟨after, queued⟩ := queued
  have verified := (chain.edges[last.val]).verified
  rw [isSource] at verified
  refine ⟨⟨state.platform.sha256 (chain.edges[last.val]).payload, .deferred⟩, prior, after, ?_⟩
  simp only [applyOneEdgeInner, (chain.edges[last.val]).decodes, unknown, (chain.edges[last.val]).parses,
    verified, if_true, receiveEdge, deferred, bind, Except.bind, named, queued, isSource, isTarget]
  rfl

variable (last) in
theorem EdgeChain.FreshPeer.pushed (fresh : chain.FreshPeer start) (same : state.platform = platform)
    (asks : Asks cbor state instances page home) (resolved : resolveSourceHome start source = some home)
    (arrivedFrom : Key) :
    ∃ deliveries, Mended state start page last deliveries
        ((PeerStep.push arrivedFrom).run cbor state instances source target (chain.edges[last.val]).wire start) ∧
      ((∀ e ∈ chain.edges, e.neutral = false) → last ∈ deliveries.map Prod.fst ∧
        (0 < last.val → ∀ i ∈ page, i ∈ deliveries.map Prod.fst)) := by
  have begun : Mended state start page last [] start := ⟨rfl, by simp, ⟨rfl, rfl⟩⟩
  rcases Nat.eq_zero_or_pos last.val with root | follows
  · obtain ⟨more, pushed, arrived⟩ := begun.push fresh same asks resolved arrivedFrom
    exact ⟨_, pushed, fun calm => ⟨arrived calm, fun follows => absurd follows (by omega)⟩⟩
  · obtain ⟨result, prior, after, run⟩ := fresh.first_push same follows arrivedFrom
    obtain ⟨more, fed, whole⟩ := (begun.deliver run).feed fresh same asks resolved
    simp only [PeerStep.run, applyOneEdge, run]
    refine ⟨_, fed, ?_⟩
    intro calm
    refine ⟨by simp, ?_⟩
    intro _ i inPage
    rw [map_append, mem_append]
    exact .inr (whole calm i inPage)

end Steps

/--
A chain of calls at its home and a fresh peer: both run on one platform, the peer knows both endpoints but no
edge, resolves the source to the home, and the home answers it.
-/
structure Recovery (cbor : Ciborium) (home peer : AppState) (sign : TrustEdge → Bytes × Bytes) (user target : Key)
    (instances : Key → Option Db) (trail : List Signing) (homeDb peerDb : Db) : Prop where
  faithful : cbor.Faithful
  framing : home.platform.decodeSignedObject = decodeSignedObject cbor
  samePlatform : peer.platform = home.platform
  run : ∃ start, start.pairEdges user target = [] ∧ HomeRun home sign user target start trail homeDb
  linked : Linked Signing.hash Signing.prior none trail
  genuine : ∀ t ∈ trail, Genuine home.platform cbor t.2
  stamped : ∀ t ∈ trail, (t.place home.platform).encode.isSome = true
  inRange : ∀ t ∈ trail, t.1.now * 1000 ≤ i64Max
  noEdges : peerDb.trustEdges = []
  noPending : peerDb.pendingTrustEdges = []
  objects : ∀ row ∈ peerDb.signedObjects, row.innerClass ≠ .trustEdge ∧ ∀ t ∈ trail, row.canonicalHash ≠ t.hash
  unique : ∀ row ∈ peerDb.signedObjects, ∀ other ∈ peerDb.signedObjects,
    row.canonicalHash = other.canonicalHash → row = other
  sourceKnown : peerDb.hasUser user = true
  targetKnown : peerDb.hasUser target = true
  resolved : resolveSourceHome peerDb user = some home.instanceKey
  answers : instances home.instanceKey = some homeDb

/-- The stance of the edge of the latest second, a tie going to the greatest row id. -/
def latestStance (platform : Platform) (rowId : Signing → Uuid) (trail : List Signing) : Option TrustStance :=
  (firstBy (fun a b : Signing => b.stamp platform < a.stamp platform ||
    (a.stamp platform == b.stamp platform && rowId b < rowId a)) trail).map (·.1.stance)

def healed (cbor : Ciborium) (peer : AppState) (instances : Key → Option Db) (user target : Key) (newest : Signing)
    (peerDb : Db) (arrivedFrom : Key) (steps : List PeerStep) : Db :=
  (.push arrivedFrom :: steps).foldl (PeerStep.run cbor peer instances user target
    (encodeSignedObject cbor newest.2.payload newest.2.signature)) peerDb

variable {cbor : Ciborium} {home peer : AppState} {sign : TrustEdge → Bytes × Bytes} {instances : Key → Option Db}
    {homeDb peerDb : Db}

theorem latestStance_rows {platform : Platform} {rowId : Signing → Uuid} {row : Signing → TrustEdgeRow}
    (calm : ∀ t ∈ trail, t.1.stance ≠ .neutral)
    (columns : ∀ t ∈ trail, (row t).createdAt = t.stamp platform ∧ (row t).id = rowId t ∧
      (row t).trustType = t.1.stance) (rows : homeDb.pairEdges user target = trail.map row) :
    (homeDb.currentTrustEdge user target).map (·.trustType) = latestStance platform rowId trail := by
  have newer : ∀ a ∈ trail, ∀ b ∈ trail, edgeNewer (row a) (row b) =
      (decide (b.stamp platform < a.stamp platform) ||
        (a.stamp platform == b.stamp platform && decide (rowId b < rowId a))) := by
    intro a inA b inB
    obtain ⟨stampA, idA, -⟩ := columns a inA
    obtain ⟨stampB, idB, -⟩ := columns b inB
    rw [edgeNewer, stampA, stampB, idA, idB]
  rw [currentTrustEdge, rows, firstBy_map newer, latestStance]
  cases found : firstBy (fun a b : Signing => b.stamp platform < a.stamp platform ||
      (a.stamp platform == b.stamp platform && rowId b < rowId a)) trail with
  | none => rfl
  | some t =>
    have inTrail := mem_of_firstBy found
    have stance := (columns t inTrail).2.2
    simp [Option.filter, stance, calm t inTrail]

section

variable (r : Recovery cbor home peer sign user target instances trail homeDb peerDb)
include r

theorem Recovery.kept : Kept home.platform user target trail homeDb := by
  obtain ⟨start, blank, run⟩ := r.run
  exact run.kept blank

def Recovery.chain (r : Recovery cbor home peer sign user target instances trail homeDb peerDb) :
    EdgeChain home.platform user target :=
  trailChain r.framing r.faithful r.genuine r.kept r.linked

theorem Recovery.mem_chain {e : SignedEdge home.platform} (mem : e ∈ r.chain.edges) :
    ∃ t ∈ trail, e.hash = t.hash ∧ e.edge = t.2.edge ∧ (e.neutral = true ↔ t.1.stance = .neutral) := by
  obtain ⟨t, inTrail, rfl⟩ := mem_pmap.mp mem
  have made := r.kept.made t inTrail
  refine ⟨t, inTrail, made.hashed.symm, rfl, ?_⟩
  rw [← made.stance]
  exact decide_eq_true_iff

theorem Recovery.fresh : r.chain.FreshPeer peerDb := by
  refine ⟨⟨r.noEdges, r.noPending, ?_, r.unique⟩, r.sourceKnown, r.targetKnown⟩
  intro row stored
  refine ⟨(r.objects row stored).1, ?_⟩
  intro e mem
  obtain ⟨t, inTrail, hash, -⟩ := r.mem_chain mem
  rw [hash]
  exact (r.objects row stored).2 t inTrail

theorem Recovery.calm_iff : r.chain.RevocationsEarly EdgeChain.never ↔ ∀ t ∈ trail, t.1.stance ≠ .neutral := by
  constructor
  · intro early t inTrail neutral
    obtain ⟨i, bound, rfl⟩ := mem_iff_getElem.mp inTrail
    have edge := trailChain_getElem r.framing r.faithful r.genuine r.kept r.linked bound
    have inside : i < r.chain.edges.length := by
      rw [Recovery.chain, trailChain_length]
      exact bound
    have made := r.kept.made _ inTrail
    cases i with
    | zero => exact r.kept.first trail[0] (head?_eq_getElem? ▸ getElem?_eq_getElem bound) neutral
    | succ i =>
      refine early (i + 1) inside (Nat.succ_pos i) ?_
      have neutralEdge := congrArg SignedEdge.neutral edge
      exact neutralEdge.trans (decide_eq_true (made.stance.trans neutral))
  · intro calm k bound _ neutral
    obtain ⟨t, inTrail, -, -, stance⟩ := r.mem_chain (getElem_mem bound)
    exact calm t inTrail (stance.mp neutral)

theorem Recovery.edge_at (bound : i < trail.length) (inside : i < r.chain.edges.length) :
    (r.chain.edges[i]).wire = encodeSignedObject cbor trail[i].2.payload trail[i].2.signature ∧
      (r.chain.edges[i]).hash = trail[i].hash := by
  have edge := trailChain_getElem r.framing r.faithful r.genuine r.kept r.linked bound
  refine ⟨congrArg SignedEdge.wire edge, (congrArg SignedEdge.hash edge).trans ?_⟩
  exact (r.kept.made _ (getElem_mem bound)).hashed.symm

theorem Recovery.length : r.chain.edges.length = trail.length :=
  trailChain_length r.framing r.faithful r.genuine r.kept r.linked

theorem Recovery.asks (nonempty : trail ≠ []) :
    ∃ page : List (Fin r.chain.edges.length), Asks cbor peer instances page home.instanceKey ∧
      (chainRows homeDb user target none).take maxEdgeBackfillPage =
        page.map fun i => (trail.get (i.cast r.length)).chainRow home.platform := by
  have kept := r.kept
  have sent : ∀ row ∈ (chainRows homeDb user target none).take maxEdgeBackfillPage,
      ∃ t ∈ trail, row = t.chainRow home.platform :=
    fun row mem => kept.sent row (mem_of_mem_take mem)
  obtain ⟨page, wires, places⟩ := trailChain_sent r.framing r.faithful r.genuine r.kept r.linked sent
  refine ⟨page, ?_, places⟩
  intro db resolved
  obtain ⟨knowsSource, knowsTarget⟩ := kept.known nonempty
  have chained : homeDb.pairEdges user target ≠ [] := by simpa [kept.rows] using nonempty
  rw [requestEdgePredecessor_root r.faithful resolved r.answers knowsSource knowsTarget chained ?_ ?_, wires]
  · rfl
  · intro row mem
    obtain ⟨t, inTrail, rfl⟩ := kept.sent row mem
    exact r.stamped t inTrail
  · intro row mem
    obtain ⟨t, inTrail, rfl⟩ := kept.sent row mem
    exact (r.genuine t inTrail).framed

end

theorem Recovery.mends (r : Recovery cbor home peer sign user target instances (older ++ [newest]) homeDb peerDb)
    (arrivedFrom : Key) (steps : List PeerStep) :
    ∃ l, r.chain.Mends peer l (healed cbor peer instances user target newest peerDb arrivedFrom steps) ∧
      (l.active.length = r.chain.edges.length ↔ Servable home.platform older newest) := by
  have kept := r.kept
  obtain ⟨page, asks, places⟩ := r.asks (by simp)
  have size : (older ++ [newest]).length = older.length + 1 := by simp
  have inside : older.length < r.chain.edges.length := by
    rw [r.length, size]
    exact Nat.lt_succ_self _
  obtain ⟨wire, -⟩ := r.edge_at (show older.length < (older ++ [newest]).length by simp) inside
  rw [getElem_concat_length rfl] at wire
  obtain ⟨deliveries, pushed, whole⟩ := EdgeChain.FreshPeer.pushed ⟨older.length, inside⟩ r.fresh
    r.samePlatform asks r.resolved arrivedFrom
  obtain ⟨more, ended⟩ := pushed.steps r.fresh r.samePlatform asks r.resolved steps
  obtain ⟨l, mends, complete⟩ := r.fresh.complete_iff r.samePlatform (deliveries ++ more)
  rw [← ended.reached] at mends
  have final : steps.foldl (PeerStep.run cbor peer instances user target (r.chain.edges[older.length]).wire)
      ((PeerStep.push arrivedFrom).run cbor peer instances user target (r.chain.edges[older.length]).wire peerDb) =
      healed cbor peer instances user target newest peerDb arrivedFrom steps := by
    rw [wire]
    rfl
  rw [final] at mends
  refine ⟨l, mends, ?_⟩
  rw [complete, r.calm_iff, Servable]
  refine and_congr_right fun calm => ?_
  rw [← kept.page_covers_iff calm, places]
  have distinct : (older ++ [newest]).Nodup := kept.distinct.of_map _
  have inPage : ∀ i : Fin r.chain.edges.length, i ∈ page ↔
      ((older ++ [newest]).get (i.cast r.length)).chainRow home.platform ∈
        page.map fun i => ((older ++ [newest]).get (i.cast r.length)).chainRow home.platform := by
    intro i
    refine ⟨fun mem => mem_map.mpr ⟨i, mem, rfl⟩, ?_⟩
    intro listed
    obtain ⟨j, mem, sameRow⟩ := mem_map.mp listed
    have same := distinct.get_inj_iff.mp (kept.chainRow_inj (get_mem _ _) (get_mem _ _) sameRow)
    have isI : j = i := Fin.ext (by simpa using congrArg Fin.val same)
    exact isI ▸ mem
  have calmEdges : ∀ e ∈ r.chain.edges, e.neutral = false := by
    intro e mem
    obtain ⟨t, inTrail, -, -, stance⟩ := r.mem_chain mem
    exact Bool.eq_false_iff.mpr fun neutral => calm t inTrail (stance.mp neutral)
  obtain ⟨arrived, fed⟩ := whole calmEdges
  constructor
  · intro all t inOlder
    obtain ⟨i, below, rfl⟩ := mem_iff_getElem.mp inOlder
    obtain ⟨d, mem, isI⟩ := mem_map.mp (all ⟨i, by omega⟩)
    have drawn : (⟨i, by omega⟩ : Fin r.chain.edges.length) ∈ page := by
      rcases ended.drawn d mem with last | inside
      · rw [isI] at last
        exact absurd (congrArg Fin.val last) (Nat.ne_of_lt below)
      · exact isI ▸ inside
    have listed := (inPage _).mp drawn
    simpa [getElem_append_left below] using listed
  · intro covers i
    rw [map_append, mem_append]
    left
    rcases Nat.lt_or_ge i.val older.length with below | above
    · refine fed (Nat.zero_lt_of_lt below) i ((inPage i).mpr ?_)
      have listed := covers _ (getElem_mem below)
      simpa [getElem_append_left below] using listed
    · have atEnd : i = ⟨older.length, inside⟩ := by
        apply Fin.ext
        have bound := Nat.lt_of_lt_of_eq i.isLt (r.length.trans size)
        exact Nat.le_antisymm (Nat.lt_succ_iff.mp bound) above
      exact atEnd ▸ arrived

theorem stamp_of_edge {t : Signing} (made : Made home.platform user target t)
    (samePlatform : peer.platform = home.platform) (inRange : t.1.now * 1000 ≤ i64Max) :
    edgeCreatedAtIso peer t.2.edge t.hash = t.stamp home.platform := by
  rw [edgeCreatedAtIso, edgeStamp, made.createdAt, if_pos inRange, Nat.mul_div_cancel _ (by decide), samePlatform,
    made.stamped]
  rfl

section

variable (r : Recovery cbor home peer sign user target instances trail homeDb peerDb)
include r

theorem Recovery.peer_stance {l : Ledger home.platform} {db : Db} (mends : r.chain.Mends peer l db)
    (complete : l.active.length = r.chain.edges.length) (calm : ∀ t ∈ trail, t.1.stance ≠ .neutral) :
    (db.currentTrustEdge user target).map (·.trustType) =
      latestStance home.platform (fun t => peer.edgeRowId t.hash) trail := by
  have all : l.active = r.chain.edges := by
    rw [mends.holds.active, complete, take_length]
  have rows : db.trustEdges = trail.map fun t => edgeRow peer t.2.edge t.hash t.2.signature := by
    rw [mends.tracks.rep.activeRows, all]
    refine map_pmap_eq r.genuine ?_
    intro t inTrail genuine
    have hash : (t.signedEdge r.framing r.faithful genuine).hash = t.hash := (r.kept.made t inTrail).hashed.symm
    rw [hash]
    rfl
  have pair : db.pairEdges user target = trail.map fun t => edgeRow peer t.2.edge t.hash t.2.signature := by
    rw [pairEdges, filter_eq_self.mpr, rows]
    intro row mem
    rw [rows] at mem
    obtain ⟨t, inTrail, rfl⟩ := mem_map.mp mem
    have made := r.kept.made t inTrail
    exact decide_eq_true ⟨made.source, made.target⟩
  refine latestStance_rows calm ?_ pair
  intro t inTrail
  have made := r.kept.made t inTrail
  exact ⟨stamp_of_edge made r.samePlatform (r.inRange t inTrail), rfl, made.stance⟩

theorem Recovery.home_stance (calm : ∀ t ∈ trail, t.1.stance ≠ .neutral) :
    (homeDb.currentTrustEdge user target).map (·.trustType) = latestStance home.platform (fun t => t.1.id) trail := by
  refine latestStance_rows calm ?_ r.kept.rows
  intro t inTrail
  exact ⟨rfl, rfl, (r.kept.made t inTrail).stance⟩

end

theorem Recovery.projected_iff
    (r : Recovery cbor home peer sign user target instances (older ++ [newest]) homeDb peerDb)
    {l : Ledger home.platform} {db : Db} (mends : r.chain.Mends peer l db) :
    db.hasEdge newest.hash = true ↔ l.active.length = r.chain.edges.length := by
  have size : (older ++ [newest]).length = older.length + 1 := by simp
  have inside : older.length + 1 = r.chain.edges.length := by rw [r.length, size]
  obtain ⟨-, hash⟩ := r.edge_at (show older.length < (older ++ [newest]).length by simp) (by omega)
  rw [getElem_concat_length rfl] at hash
  rw [← hash]
  exact mends.projected_iff inside

/--
Edge backfill brings the newest edge of a chain into force exactly if no call of the chain was a delete and
the other edges are within the first page; the peer then shows the home's stance exactly if, among the edges
of the latest second, the row ids of both pick the same stance.
-/
theorem backfill_heals_iff (older : List Signing) (newest : Signing)
    (r : Recovery cbor home peer sign user target instances (older ++ [newest]) homeDb peerDb)
    (arrivedFrom : Key) (steps : List PeerStep) :
    let after := healed cbor peer instances user target newest peerDb arrivedFrom steps
    (after.hasEdge newest.hash = true ↔ Servable home.platform older newest) ∧
      ((after.hasEdge newest.hash = true ∧ (after.currentTrustEdge user target).map (·.trustType) =
          (homeDb.currentTrustEdge user target).map (·.trustType)) ↔
        Servable home.platform older newest ∧
          latestStance home.platform (fun t => peer.edgeRowId t.hash) (older ++ [newest]) =
            latestStance home.platform (fun t => t.1.id) (older ++ [newest])) := by
  obtain ⟨l, mends, complete⟩ := r.mends arrivedFrom steps
  have projected := (r.projected_iff mends).trans complete
  refine ⟨projected, ?_⟩
  rw [projected]
  refine and_congr_right fun servable => ?_
  rw [r.peer_stance mends (complete.mpr servable) servable.1, r.home_stance servable.1]

/-- A grant, what a second call turns it into, and the grant after its revocation. -/
def regrantTable : List SignedPayload :=
  [.trustEdge ⟨1, 2, .trust, 5000, none⟩, .trustEdge ⟨1, 2, .distrust, 6000, some 1⟩,
    .trustEdge ⟨1, 2, .neutral, 6000, some 1⟩, .trustEdge ⟨1, 2, .trust, 7000, some 3⟩]

def framedPlatform : Platform :=
  { Platform.ofTable regrantTable with
    decodeSignedObject := decodeSignedObject shortestCbor
    formatTimestamp := fun secs => some (decimal 20 secs) }

def grantHome : AppState where
  platform := framedPlatform
  instanceKey := 7
  edgeRowId _ := 0
  edgeClock _ := ""

def grantPeer : AppState where
  platform := framedPlatform
  instanceKey := 9
  edgeRowId hash := hash.setWidth 128
  edgeClock _ := ""

def grantSign (edge : TrustEdge) : Bytes × Bytes :=
  ([UInt8.ofNat (regrantTable.findIdx (· = .trustEdge edge))], List.replicate 64 0)

def grantStart : Db where
  users := [⟨1, "a", "a", .invite, none, false⟩, ⟨2, "b", "b", .invite, none, false⟩]
  signingKeys := [⟨1, true⟩]

def strangerDb : Db where
  users := [⟨1, "a", "a", .federated, some 7, false⟩, ⟨2, "b", "b", .federated, some 7, false⟩]

def afterGrant (db : Db) (call : TrustCall) : Signing × Db :=
  match mutateTrustEdge grantHome grantSign db 1 2 call with
  | .ok (signed, after) => ((call, signed), after)
  | .error _ => ((call, ⟨⟨1, 2, .trust, 5000, none⟩, [], [], 0⟩), db)

def granted₁ : Signing × Db := afterGrant grantStart ⟨.trust, 5, 2⟩
def reversed₂ : Signing × Db := afterGrant granted₁.2 ⟨.distrust, 6, 3⟩
def revoked₂ : Signing × Db := afterGrant granted₁.2 ⟨.neutral, 6, 3⟩
def regranted₃ : Signing × Db := afterGrant revoked₂.2 ⟨.trust, 7, 4⟩

theorem grant_genuine {t : Signing} (mem : t ∈ [granted₁.1, reversed₂.1, revoked₂.1, regranted₃.1]) :
    Genuine framedPlatform shortestCbor t.2 := by
  simp only [mem_cons, not_mem_nil, or_false] at mem
  rcases mem with rfl | rfl | rfl | rfl <;> exact ⟨rfl, by decide, by decide, by decide, by decide +kernel⟩

theorem reversal_recovery : Recovery shortestCbor grantHome grantPeer grantSign 1 2 (fun _ => some reversed₂.2)
    ([granted₁.1] ++ [reversed₂.1]) reversed₂.2 strangerDb := by
  have run : HomeRun grantHome grantSign 1 2 grantStart ([] ++ [granted₁.1] ++ [reversed₂.1]) reversed₂.2 :=
    .call (.call .start rfl rfl) rfl rfl
  refine ⟨shortestCbor_faithful, rfl, rfl, ⟨grantStart, rfl, run⟩, ⟨rfl, rfl, trivial⟩, ?_, by decide, by decide,
    rfl, rfl, nofun, nofun, rfl, rfl, rfl, rfl⟩
  intro t mem
  apply grant_genuine
  revert t
  decide

theorem regrant_recovery : Recovery shortestCbor grantHome grantPeer grantSign 1 2 (fun _ => some regranted₃.2)
    ([granted₁.1, revoked₂.1] ++ [regranted₃.1]) regranted₃.2 strangerDb := by
  have run : HomeRun grantHome grantSign 1 2 grantStart ([] ++ [granted₁.1] ++ [revoked₂.1] ++ [regranted₃.1])
      regranted₃.2 :=
    .call (.call (.call .start rfl rfl) rfl rfl) rfl rfl
  refine ⟨shortestCbor_faithful, rfl, rfl, ⟨grantStart, rfl, run⟩, ⟨rfl, rfl, rfl, trivial⟩, ?_, by decide, by decide,
    rfl, rfl, nofun, nofun, rfl, rfl, rfl, rfl⟩
  intro t mem
  apply grant_genuine
  revert t
  decide

/-- The grant that was turned into distrust heals at a peer that is pushed the second edge only. -/
theorem reversal_heals :
    (healed shortestCbor grantPeer (fun _ => some reversed₂.2) 1 2 reversed₂.1 strangerDb 7 []).hasEdge
        reversed₂.1.hash = true ∧
      ((healed shortestCbor grantPeer (fun _ => some reversed₂.2) 1 2 reversed₂.1 strangerDb 7 []).currentTrustEdge
        1 2).map (·.trustType) = some .distrust := by
  have servable : Servable framedPlatform [granted₁.1] reversed₂.1 := ⟨by decide, .inl (by decide)⟩
  obtain ⟨-, heals⟩ := backfill_heals_iff [granted₁.1] reversed₂.1 reversal_recovery 7 []
  obtain ⟨projected, stance⟩ := heals.mpr ⟨servable, by decide⟩
  exact ⟨projected, stance.trans (by decide)⟩

/-- The grant after a revocation never heals: the home has erased the first grant, which the revocation names. -/
theorem regrant_never_heals : Recovery shortestCbor grantHome grantPeer grantSign 1 2 (fun _ => some regranted₃.2)
      ([granted₁.1, revoked₂.1] ++ [regranted₃.1]) regranted₃.2 strangerDb ∧
    (regranted₃.2.currentTrustEdge 1 2).map (·.trustType) = some .trust ∧
    ((healed shortestCbor grantPeer (fun _ => some regranted₃.2) 1 2 regranted₃.1 strangerDb 7
      [.push 7, .backfill]).currentTrustEdge 1 2).map (·.trustType) = none ∧
    ∀ steps, (healed shortestCbor grantPeer (fun _ => some regranted₃.2) 1 2 regranted₃.1 strangerDb 7
      steps).hasEdge regranted₃.1.hash = false := by
  have r := regrant_recovery
  refine ⟨r, by decide, by decide +kernel, ?_⟩
  intro steps
  obtain ⟨l, mends, complete⟩ := r.mends 7 steps
  rw [Bool.eq_false_iff]
  intro projected
  have servable := complete.mp ((r.projected_iff mends).mp projected)
  exact servable.1 revoked₂.1 (by simp) (by decide)

end Prismoire