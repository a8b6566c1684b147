import Mathlib.Data.List.Perm.Subperm
import Prismoire.EdgeEffects
import Prismoire.EdgeSets
import Prismoire.RemoteUsers

namespace Prismoire

open Lib List Function Db

variable {platform : Platform} {source target : Key}

namespace EdgeSet

section

variable (set : EdgeSet platform source target)

/-- The edge may be the newest of the rooted ones: its time is as late as every time in range, or is
out of range and read from the receiver's clock. -/
def Newest (e : SignedEdge platform) : Prop :=
  ∀ own, edgeStamp platform e.edge = some own →
    ∀ f, set.Rooted f → ∀ other, edgeStamp platform f.edge = some other → other ≤ own

def Settled : Prop :=
  ∀ e f, set.Rooted e → set.Rooted f → set.Newest e → set.Newest f → e.edge.stance = f.edge.stance

/-- The bytes of the edge are in the object store or in the orphan buffer. -/
def Retained (db : Db) (e : SignedEdge platform) : Prop :=
  (∃ row ∈ db.signedObjects, row.payload = some e.payload) ∨ ∃ row ∈ db.pendingTrustEdges, row.payload = e.payload

def stance (db : Db) (source target : Key) : Option TrustStance :=
  (db.currentTrustEdge source target).map (·.trustType)

def Agrees : Prop :=
  ∀ (a b : Instance set) (orderA orderB : List (SignedEdge platform × Key)),
    (orderA.map Prod.fst).Perm set.edges → (orderB.map Prod.fst).Perm set.edges →
    let dbA := process a.state a.db orderA
    let dbB := process b.state b.db orderB
    (∀ hash, dbA.hasPairEdge source target hash = dbB.hasPairEdge source target hash) ∧
      stance dbA source target = stance dbB source target ∧
      ∀ e ∈ set.edges, ∀ f ∈ set.edges, e ≠ f → e.prior = f.prior → Retained dbA e ∧ Retained dbB e

end

section View

variable {set : EdgeSet platform source target}

variable {state : AppState} {db : Db} {active : List (SignedEdge platform)}

theorem pairEdges_map (rows : db.trustEdges = active.map (fun e => edgeRow state e.edge e.hash e.signature))
    (rooted : ∀ e, e ∈ active ↔ set.Rooted e) : db.pairEdges source target = db.trustEdges := by
  rw [pairEdges, filter_eq_self]
  intro row mem
  rw [rows] at mem
  obtain ⟨e, inActive, rfl⟩ := mem_map.mp mem
  have := set.pair e ((rooted e).mp inActive).member
  exact decide_eq_true this

theorem first_newest (same : state.platform = platform)
    (rows : db.trustEdges = active.map (fun e => edgeRow state e.edge e.hash e.signature))
    (rooted : ∀ e, e ∈ active ↔ set.Rooted e) (nonempty : active ≠ []) :
    ∃ e, set.Rooted e ∧ set.Newest e ∧
      firstBy edgeNewer (db.pairEdges source target) = some (edgeRow state e.edge e.hash e.signature) ∧
      ∀ f, set.Rooted f → edgeNewer (edgeRow state f.edge f.hash f.signature)
        (edgeRow state e.edge e.hash e.signature) = false := by
  rw [pairEdges_map rows rooted, rows]
  obtain ⟨first, mem, found, least⟩ := firstBy_spec edgeNewer_trans edgeNewer_irrefl
    (show active.map (fun e => edgeRow state e.edge e.hash e.signature) ≠ [] by simpa using nonempty)
  obtain ⟨e, inActive, rfl⟩ := mem_map.mp mem
  have least' : ∀ f, set.Rooted f → edgeNewer (edgeRow state f.edge f.hash f.signature)
      (edgeRow state e.edge e.hash e.signature) = false := fun f rootedF =>
    least _ (mem_map.mpr ⟨f, (rooted f).mpr rootedF, rfl⟩)
  refine ⟨e, (rooted e).mp inActive, ?_, found, least'⟩
  intro own isOwn f rootedF other isOther
  by_contra later
  have newer := least' f rootedF
  simp only [edgeNewer, edgeRow, edgeCreatedAtIso, same, isOwn, isOther, Option.getD_some,
    Bool.or_eq_false_iff, decide_eq_false_iff_not] at newer
  exact later (not_lt.mp newer.1)

theorem stance_of_first {row : TrustEdgeRow} (found : firstBy edgeNewer (db.pairEdges source target) = some row) :
    stance db source target = if row.trustType = .neutral then none else some row.trustType := by
  simp only [stance, currentTrustEdge, found]
  by_cases neutral : row.trustType = .neutral <;> simp [Option.filter, neutral]

theorem hasPairEdge_iff_rooted (rows : db.trustEdges = active.map (fun e => edgeRow state e.edge e.hash e.signature))
    (rooted : ∀ e, e ∈ active ↔ set.Rooted e) {hash : Hash} :
    db.hasPairEdge source target hash = true ↔ ∃ e, set.Rooted e ∧ e.hash = hash := by
  simp only [hasPairEdge, rows, any_map, any_eq_true, comp_apply, decide_eq_true_eq, edgeRow]
  constructor
  · rintro ⟨e, inActive, -, -, same⟩
    exact ⟨e, (rooted e).mp inActive, same⟩
  · rintro ⟨e, isRooted, same⟩
    obtain ⟨fromSource, toTarget⟩ := set.pair e isRooted.member
    exact ⟨e, (rooted e).mpr isRooted, fromSource, toTarget, same⟩

end View

section Sufficient

variable {set : EdgeSet platform source target}

theorem agrees_of_settled (unforked : set.Unforked) (unrevoked : set.Unrevoked) (settled : set.Settled) :
    set.Agrees := by
  intro a b orderA orderB allA allB
  obtain ⟨activeA, rowsA, rootedA⟩ := a.active_iff unforked unrevoked allA
  obtain ⟨activeB, rowsB, rootedB⟩ := b.active_iff unforked unrevoked allB
  refine ⟨?_, ?_, ?_⟩
  · intro hash
    rw [Bool.eq_iff_iff, hasPairEdge_iff_rooted rowsA rootedA, hasPairEdge_iff_rooted rowsB rootedB]
  · by_cases empty : activeA = []
    · have emptyB : activeB = [] := by
        rw [eq_nil_iff_forall_not_mem]
        intro e inActive
        have := (rootedA e).mpr ((rootedB e).mp inActive)
        simp [empty] at this
      simp [stance, currentTrustEdge, pairEdges_map rowsA rootedA, pairEdges_map rowsB rootedB, rowsA,
        rowsB, empty, emptyB]
    · have nonemptyB : activeB ≠ [] := by
        obtain ⟨e, inActive⟩ := exists_mem_of_ne_nil _ empty
        exact ne_nil_of_mem ((rootedB e).mpr ((rootedA e).mp inActive))
      obtain ⟨e, isRootedE, newestE, foundA, -⟩ := first_newest a.same rowsA rootedA empty
      obtain ⟨f, isRootedF, newestF, foundB, -⟩ := first_newest b.same rowsB rootedB nonemptyB
      have equal : e.edge.stance = f.edge.stance := settled e f isRootedE isRootedF newestE newestF
      have sameType : (edgeRow a.state e.edge e.hash e.signature).trustType =
          (edgeRow b.state f.edge f.hash f.signature).trustType := equal
      rw [stance_of_first foundA, stance_of_first foundB, sameType]
  · intro e inE f inF other samePrior
    exact absurd (unforked e inE f inF samePrior) other

end Sufficient

section Necessary

variable {set : EdgeSet platform source target}

def stub (key : Key) : UserRow where
  publicKey := key
  displayName := keyHandle key
  displayNameSkeleton := keyHandle key
  signupMethod := .federated
  homeInstance := some 0

def endpointsOnly (source target : Key) : Db :=
  { users := if source = target then [stub source] else [stub source, stub target] }

theorem endpointsOnly_known (key : Key) (isEndpoint : key = source ∨ key = target) :
    (endpointsOnly source target).hasUser key = true := by
  unfold endpointsOnly hasUser
  split
  · rename_i same
    rcases isEndpoint with rfl | rfl <;> simp [stub, same]
  · rcases isEndpoint with rfl | rfl <;> simp [stub]

def plain (set : EdgeSet platform source target) (state : AppState) (same : state.platform = platform) :
    Instance set where
  state := state
  db := endpointsOnly source target
  same := same
  sourceKnown := endpointsOnly_known source (.inl rfl)
  targetKnown := endpointsOnly_known target (.inr rfl)
  noEdges := rfl
  noPending := rfl
  objects := by simp [endpointsOnly]
  unique := by simp [endpointsOnly]

def stateOf (platform : Platform) : AppState where
  platform := platform
  instanceKey := 0
  edgeRowId _ := 0
  edgeClock _ := ""

variable {state : AppState} {db : Db}

variable {corpus : Corpus} {prior current : Hash} {fuel : Nat}

theorem process_effects (same : state.platform = platform)
    (order : List (SignedEdge platform × Key)) (occurs : ∀ d ∈ order, corpus d.1.payload)
    (sound : EdgeSound state corpus db) : EdgeEffects state corpus db (process state db order) := by
  subst same
  induction order generalizing db with
  | nil => exact .refl
  | cons d order ih =>
    have first : EdgeEffects state corpus db (deliverEdge state db d.1.wire d.2) := by
      refine deliverEdge_effects sound ?_
      intro payload signature decodes
      rw [d.1.decodes, Option.some.injEq, Prod.mk.injEq] at decodes
      exact decodes.1 ▸ occurs d (by simp)
    exact first.trans (ih (first.sound sound) fun d' inOrder => occurs d' (by simp [inOrder]))

theorem sound_endpointsOnly : EdgeSound state corpus (endpointsOnly source target) :=
  ⟨by simp [endpointsOnly], by simp [endpointsOnly], by simp [endpointsOnly]⟩

theorem deliver_root (same : state.platform = platform) {e : SignedEdge platform}
    (mem : e ∈ set.edges) (isRoot : e.prior = none) (peer : Key) :
    (deliverEdge state (endpointsOnly source target) e.wire peer).trustEdges =
      [edgeRow state e.edge e.hash e.signature] := by
  let single : EdgeSet platform source target :=
    ⟨[e], fun f inF => set.pair f (mem_singleton.mp inF ▸ mem), nodup_singleton _⟩
  have alone : single.Unforked := by
    intro f inF g inG _
    rw [mem_singleton.mp inF, mem_singleton.mp inG]
  obtain ⟨tracks, -⟩ := (single.plain state same).tracks.deliver alone.forkFree same (mem_singleton_self e)
    (by simp [Ledger.Waiting]) peer
  have landed : (Ledger.deliver ⟨[], [], []⟩ e).active = [e] := by
    simp [Ledger.deliver, Ledger.holds, Ledger.grounded, isRoot, Ledger.land, Ledger.follow, Ledger.activate]
  rw [show deliverEdge state (endpointsOnly source target) e.wire peer =
    deliverEdge (single.plain state same).state (single.plain state same).db e.wire peer from rfl,
    tracks.rep.activeRows, landed]
  rfl

theorem sibling_root_excluded {e f : SignedEdge platform} (inE : e ∈ set.edges) (inF : f ∈ set.edges)
    (other : e ≠ f) (rootE : e.prior = none) (rootF : f.prior = none)
    (same : state.platform = platform) {rest : List (SignedEdge platform × Key)}
    (sub : ∀ d ∈ rest, d.1 ∈ set.edges) (peer : Key) :
    let final := process state (endpointsOnly source target) ((e, peer) :: rest)
    final.hasPairEdge source target e.hash = true ∧ final.hasPairEdge source target f.hash = false := by
  intro final
  let corpus : Corpus := fun payload => ∃ g ∈ set.edges, g.payload = payload
  have occurs : ∀ d ∈ (e, peer) :: rest, corpus d.1.payload := by
    intro d inOrder
    rcases mem_cons.mp inOrder with rfl | inRest
    · exact ⟨e, inE, rfl⟩
    · exact ⟨d.1, sub d inRest, rfl⟩
  have soundStart : EdgeSound state corpus (endpointsOnly source target) := sound_endpointsOnly
  have whole : EdgeEffects state corpus (endpointsOnly source target) final :=
    process_effects same _ occurs soundStart
  have firstStep : EdgeEffects state corpus (endpointsOnly source target)
      (deliverEdge state (endpointsOnly source target) e.wire peer) :=
    process_effects same [(e, peer)] (fun d inOrder => occurs d (by simp_all)) soundStart
  have landed := deliver_root same inE rootE peer
  have present : edgeRow state e.edge e.hash e.signature ∈ final.trustEdges := by
    have rests : EdgeEffects state corpus (deliverEdge state (endpointsOnly source target) e.wire peer) final :=
      process_effects same _ (fun d inOrder => occurs d (mem_cons_of_mem _ inOrder)) (firstStep.sound soundStart)
    exact rests.edge_stays (by simp [landed])
  obtain ⟨fromE, toE⟩ := set.pair e inE
  refine ⟨any_eq_true.mpr ⟨_, present, by simp [edgeRow, fromE, toE]⟩, ?_⟩
  rw [Bool.eq_false_iff]
  intro projected
  obtain ⟨row, inRows, isF⟩ := any_eq_true.mp projected
  obtain ⟨rowSource, rowTarget, rowHash⟩ : row.sourceUser = source ∧ row.targetUser = target ∧
      row.canonicalHash = f.hash := by simpa using isF
  obtain ⟨payload, signature, edge, filed, hashed, -, -, prior⟩ := (whole.sound soundStart).edges row inRows
  obtain ⟨g, inG, rfl⟩ := filed.occurs
  have isG : g = f := set.hash_injective inG inF (by
    rw [← rowHash, hashed, SignedEdge.hash, same])
  subst isG
  have edgeEq : edge = g.edge := by
    have parses := filed.parses
    rw [same, g.parses] at parses
    simpa [eq_comm] using parses
  have one : OneSuccessor final := whole.oneSuccessor (by simp [OneSuccessor, endpointsOnly])
  have collide := one row inRows _ present (rowSource.trans fromE.symm) (rowTarget.trans toE.symm)
    (by rw [prior, edgeEq]; exact rootF.trans rootE.symm)
  exact other (set.hash_injective inE inF (by rw [← rowHash, collide]; rfl))

theorem deliver_orphan (same : state.platform = platform) {e : SignedEdge platform}
    (mem : e ∈ set.edges) (isPrior : e.prior = some prior) (db : Db)
    (users : db.users = (endpointsOnly source target).users) (noEdges : db.trustEdges = [])
    (noObjects : db.signedObjects = []) (peer : Key) :
    deliverEdge state db e.wire peer = (enqueuePendingTrustEdge db e.edge e.hash e.payload e.signature).2 := by
  obtain ⟨fromE, toE⟩ := set.pair e mem
  have known : ∀ key, key = source ∨ key = target → db.hasUser key = true := by
    intro key isEndpoint
    rw [hasUser, users]
    exact endpointsOnly_known key isEndpoint
  have tried : tryProjectTrustEdge state db e.edge e.hash e.signature e.payload = .ok (.deferred, db) := by
    have namesPrior : e.edge.priorEdgeHash = some prior := isPrior
    simp [tryProjectTrustEdge, fromE, toE, known source (.inl rfl), known target (.inr rfl), hasEdge,
      edgeForked, hasPairEdge, noEdges, namesPrior]
  rw [deliverEdge_fresh same (by simp [noObjects]) peer]
  have namesPrior : e.edge.priorEdgeHash = some prior := isPrior
  simp only [receiveEdge, tried, namesPrior, bind, Except.bind]
  rfl

theorem sibling_orphan_dropped {e f : SignedEdge platform} (inE : e ∈ set.edges) (inF : f ∈ set.edges)
    (other : e ≠ f) (waitsE : e.prior = some prior) (waitsF : f.prior = some prior) (same : state.platform = platform)
    {rest : List (SignedEdge platform × Key)}
    (sub : ∀ d ∈ rest, d.1 ∈ set.edges ∧ d.1 ≠ f) (peer : Key) :
    ¬ Retained (process state (endpointsOnly source target) ((e, peer) :: (f, peer) :: rest)) f := by
  obtain ⟨fromE, toE⟩ := set.pair e inE
  obtain ⟨fromF, toF⟩ := set.pair f inF
  have namesE : e.edge.priorEdgeHash = some prior := waitsE
  have namesF : f.edge.priorEdgeHash = some prior := waitsF
  let buffered : Db := { endpointsOnly source target with pendingTrustEdges := [e.pendingRow] }
  have first : deliverEdge state (endpointsOnly source target) e.wire peer = buffered := by
    rw [deliver_orphan same inE waitsE (endpointsOnly source target) rfl rfl rfl peer]
    simp [enqueuePendingTrustEdge, namesE, endpointsOnly, buffered, SignedEdge.pendingRow, waitsE]
  have second : deliverEdge state buffered f.wire peer = buffered := by
    rw [deliver_orphan same inF waitsF buffered rfl rfl rfl peer]
    simp [enqueuePendingTrustEdge, namesF, buffered, SignedEdge.pendingRow, waitsE, fromE, fromF]
  have run : process state (endpointsOnly source target) ((e, peer) :: (f, peer) :: rest) =
      process state buffered rest := by
    simp only [process, foldl_cons, first, second]
  let corpus : Corpus := fun payload => ∃ g ∈ set.edges, g ≠ f ∧ g.payload = payload
  have soundStart : EdgeSound state corpus buffered := by
    refine ⟨by simp [buffered, endpointsOnly], ?_, by simp [buffered, endpointsOnly]⟩
    intro row mem
    rw [mem_singleton.mp mem]
    subst same
    exact ⟨rfl, e.edge, ⟨⟨e, inE, other, rfl⟩, e.parses, _, e.verified⟩, namesE.trans (by simp [SignedEdge.pendingRow, waitsE])⟩
  have sound : EdgeSound state corpus (process state buffered rest) :=
    (process_effects same rest (fun d inRest => ⟨d.1, (sub d inRest).1, (sub d inRest).2, rfl⟩)
      soundStart).sound soundStart
  have unseen : ¬ corpus f.payload := by
    rintro ⟨g, inG, notF, samePayload⟩
    exact notF (set.hash_injective inG inF (by rw [SignedEdge.hash, SignedEdge.hash, samePayload]))
  rw [run]
  rintro (⟨row, mem, isF⟩ | ⟨row, mem, isF⟩)
  · obtain ⟨payload, object, filed, -, -, kept⟩ := sound.objects row mem
    obtain rfl : payload = f.payload := by simpa [isF, eq_comm] using kept
    exact unseen filed.occurs
  · obtain ⟨edge, filed, -⟩ := (sound.buffered row mem).filed
    exact unseen (isF ▸ filed.occurs)

theorem exists_order (set : EdgeSet platform source target) (early : List (SignedEdge platform))
    (nodup : early.Nodup) (sub : ∀ e ∈ early, e ∈ set.edges) :
    ∃ rest : List (SignedEdge platform), (early ++ rest).Perm set.edges := by
  obtain ⟨chosen, perm, sublist⟩ := subperm_of_subset nodup sub
  obtain ⟨rest, whole⟩ := sublist.exists_perm_append
  exact ⟨rest, ((perm.append_right rest).symm.trans whole.symm)⟩

theorem edges_nodup (set : EdgeSet platform source target) : set.edges.Nodup :=
  List.Nodup.of_map _ set.distinct

def fromPeer (order : List (SignedEdge platform)) : List (SignedEdge platform × Key) :=
  order.map fun e => (e, 0)

theorem fromPeer_fst (order : List (SignedEdge platform)) : (fromPeer order).map Prod.fst = order := by
  simp [fromPeer, comp_def]

theorem mem_fromPeer {order : List (SignedEdge platform)} {d : SignedEdge platform × Key}
    (mem : d ∈ fromPeer order) : d.1 ∈ order := by
  obtain ⟨e, inOrder, rfl⟩ := mem_map.mp mem
  exact inOrder

theorem unforked_of_agrees (agrees : set.Agrees) : set.Unforked := by
  intro e inE f inF samePrior
  by_contra other
  let node := set.plain (stateOf platform) rfl
  obtain ⟨rest, perm⟩ := set.exists_order [e, f] (by simp [other]) (by simp [inE, inF])
  obtain ⟨rest', perm'⟩ := set.exists_order [f, e] (by simp [Ne.symm other]) (by simp [inE, inF])
  obtain ⟨sameHashes, -, retained⟩ := agrees node node (fromPeer (e :: f :: rest)) (fromPeer (f :: e :: rest'))
    (by rw [fromPeer_fst]; exact perm) (by rw [fromPeer_fst]; exact perm')
  have inSet : ∀ d ∈ fromPeer (f :: rest), d.1 ∈ set.edges := fun d mem =>
    perm.mem_iff.mp (mem_cons_of_mem _ (mem_fromPeer mem))
  have inSet' : ∀ d ∈ fromPeer (e :: rest'), d.1 ∈ set.edges := fun d mem =>
    perm'.mem_iff.mp (mem_cons_of_mem _ (mem_fromPeer mem))
  cases prior : e.prior with
  | none =>
    have same : (stateOf platform).platform = platform := rfl
    have final := sibling_root_excluded inE inF other prior (samePrior ▸ prior) same inSet 0
    have final' := sibling_root_excluded inF inE (Ne.symm other) (samePrior ▸ prior) prior same inSet' 0
    have equal : (process (stateOf platform) (endpointsOnly source target)
        ((e, 0) :: fromPeer (f :: rest))).hasPairEdge source target e.hash =
        (process (stateOf platform) (endpointsOnly source target)
        ((f, 0) :: fromPeer (e :: rest'))).hasPairEdge source target e.hash := sameHashes e.hash
    rw [final.1, final'.2] at equal
    cases equal
  | some hash =>
    have same : (stateOf platform).platform = platform := rfl
    have nodup : (e :: f :: rest).Nodup := perm.nodup_iff.mpr set.edges_nodup
    have apart : ∀ d ∈ fromPeer rest, d.1 ∈ set.edges ∧ d.1 ≠ f := by
      intro d mem
      refine ⟨perm.mem_iff.mp (mem_append_right _ (mem_fromPeer mem)), ?_⟩
      rintro rfl
      exact (nodup_cons.mp (nodup_cons.mp nodup).2).1 (mem_fromPeer mem)
    exact sibling_orphan_dropped inE inF other prior (samePrior ▸ prior) same apart 0
      (retained f inF e inE (Ne.symm other) samePrior.symm).1

/-- A calm ascent from a first edge: no edge on the way revokes another. -/
structure Climb (set : EdgeSet platform source target) (chain : List (SignedEdge platform))
    (top : SignedEdge platform) : Prop where
  linked : Linked SignedEdge.hash SignedEdge.prior none chain
  nodup : chain.Nodup
  sub : ∀ e ∈ chain, e ∈ set.edges
  calm : ∀ e ∈ chain, e.neutral = true → e.prior = none
  last : chain.getLast? = some top

theorem Rooted.climb {e : SignedEdge platform} (rooted : set.Rooted e) :
    (∃ chain, set.Climb chain e) ∨ ∃ chain top next, set.Climb chain top ∧ next ∈ set.edges ∧
      next.prior = some top.hash ∧ next.neutral = true := by
  induction rooted with
  | @root e mem isRoot =>
    refine .inl ⟨[e], ⟨isRoot, trivial⟩, nodup_singleton e, ?_, ?_, rfl⟩
    · intro f inChain
      exact mem_singleton.mp inChain ▸ mem
    · intro f inChain _
      exact mem_singleton.mp inChain ▸ isRoot
  | @next e f _ mem isNext ih =>
    rcases ih with ⟨chain, climb⟩ | blocked
    · by_cases neutral : f.neutral = true
      · exact .inr ⟨chain, e, f, climb, mem, isNext, neutral⟩
      · left
        by_cases seen : f ∈ chain
        · -- The ascent already passed through the edge: cut it there.
          obtain ⟨front, back, rfl⟩ := append_of_mem seen
          have whole : front ++ f :: back = (front ++ [f]) ++ back := by simp
          have inside : ∀ g ∈ front ++ [f], g ∈ front ++ f :: back := by
            intro g inFront
            rw [whole]
            exact mem_append_left _ inFront
          refine ⟨front ++ [f], ?_, ?_, ?_, ?_, by simp⟩
          · exact Linked.of_append (whole ▸ climb.linked)
          · exact (nodup_append.mp (whole ▸ climb.nodup)).1
          · exact fun g inFront => climb.sub g (inside g inFront)
          · exact fun g inFront => climb.calm g (inside g inFront)
        · refine ⟨chain ++ [f], ?_, ?_, ?_, ?_, by simp⟩
          · refine climb.linked.append ?_
            rw [tip, climb.last]
            exact isNext
          · exact nodup_append.mpr ⟨climb.nodup, nodup_singleton f,
              fun g inChain h isF => fun same => seen (mem_singleton.mp isF ▸ same ▸ inChain)⟩
          · exact forall_mem_concat.mpr ⟨climb.sub, mem⟩
          · exact forall_mem_concat.mpr ⟨climb.calm, fun isNeutral => absurd isNeutral neutral⟩
    · exact .inr blocked

theorem tracks_foldl (unforked : set.Unforked) (same : state.platform = platform)
    (order : List (SignedEdge platform × Key)) (sub : ∀ d ∈ order, d.1 ∈ set.edges)
    {l : Ledger platform} (tracks : Tracks source target set.edges state l db)
    (waiting : l.Waiting) :
    Tracks source target set.edges state (order.foldl (fun l d => l.deliver d.1) l) (process state db order) := by
  induction order generalizing l db with
  | nil => exact tracks
  | cons d order ih =>
    obtain ⟨tracks', waiting'⟩ := tracks.deliver unforked.forkFree same (sub d (by simp)) waiting d.2
    exact ih (fun d' inOrder => sub d' (by simp [inOrder])) tracks' waiting'

theorem follow_active {l landed : Ledger platform} {e : SignedEdge platform}
    (run : Ledger.follow fuel l current = some landed) (inForce : e ∈ l.active) : e ∈ landed.active := by
  induction fuel generalizing l current with
  | zero =>
    cases run
    exact inForce
  | succ fuel ih =>
    simp only [Ledger.follow] at run
    split at run
    · cases run
      exact inForce
    · split at run
      · cases run
      · exact ih run (mem_append_left _ inForce)

section

variable {l : Ledger platform} {e f : SignedEdge platform} (inForce : e ∈ l.active)
include inForce

theorem land_active : e ∈ (l.land f).active := by
  unfold Ledger.land
  cases run : Ledger.follow (l.buffered.length + 1) (l.activate f) f.hash with
  | none => exact inForce
  | some landed => exact follow_active run (mem_append_left _ inForce)

theorem deliver_active : e ∈ (l.deliver f).active := by
  unfold Ledger.deliver
  split
  · exact inForce
  · split
    · split
      · exact land_active inForce
      · exact inForce
    · split
      · split
        · exact inForce
        · exact land_active inForce
      · split
        · exact inForce
        · exact inForce

end

theorem foldl_active {order : List (SignedEdge platform × Key)} {l : Ledger platform}
    {e : SignedEdge platform} (inForce : e ∈ l.active) :
    e ∈ (order.foldl (fun l d => l.deliver d.1) l).active := by
  induction order generalizing l with
  | nil => exact inForce
  | cons d order ih => exact ih (deliver_active inForce)

theorem foldl_climb {front back : List (SignedEdge platform)}
    (linked : Linked SignedEdge.hash SignedEdge.prior none (front ++ back)) (nodup : (front ++ back).Nodup)
    (sub : ∀ e ∈ front ++ back, e ∈ set.edges)
    (calm : ∀ e ∈ front ++ back, e.neutral = true → e.prior = none) :
    (fromPeer back).foldl (fun l d => l.deliver d.1) ⟨front, [], []⟩ =
      (⟨front ++ back, [], []⟩ : Ledger platform) := by
  induction back generalizing front with
  | nil => simp [fromPeer]
  | cons e back ih =>
    have fresh : Ledger.holds front e.hash = false := by
      rw [Bool.eq_false_iff]
      intro held
      obtain ⟨f, inFront, same⟩ := Ledger.holds_iff.mp held
      obtain rfl := set.hash_injective (sub f (by simp [inFront])) (sub e (by simp)) same
      exact (nodup_append.mp nodup).2.2 f inFront f mem_cons_self rfl
    have atTip : e.prior = tip SignedEdge.hash front := by
      rw [linked.prior_eq, Option.or_none]
    have ground : e.prior.all (Ledger.holds front) = true := by
      rw [atTip]
      cases last : tip SignedEdge.hash front with
      | none => rfl
      | some hash =>
        obtain ⟨f, inFront, -, isLast⟩ := Ledger.tip_mem last
        exact Ledger.holds_iff.mpr ⟨f, inFront, isLast⟩
    have quiet : (e.neutral && e.prior.isSome) = false := by
      rw [Bool.eq_false_iff, ne_eq, Bool.and_eq_true]
      rintro ⟨neutral, later⟩
      rw [calm e (by simp) neutral] at later
      cases later
    have step : Ledger.deliver ⟨front, [], []⟩ e = ⟨front ++ [e], [], []⟩ := by
      simp only [Ledger.deliver, fresh, Ledger.grounded, ground, quiet, Bool.false_eq_true, if_false, if_true]
      simp [Ledger.holds, Ledger.land, Ledger.follow, Ledger.activate]
    have regroup : front ++ e :: back = (front ++ [e]) ++ back := by simp
    have rest := @ih (front ++ [e]) (regroup ▸ linked) (regroup ▸ nodup)
      (fun f inChain => sub f (regroup ▸ inChain)) (fun f inChain => calm f (regroup ▸ inChain))
    simp only [fromPeer, map_cons, foldl_cons, step] at rest ⊢
    rw [rest, regroup]

/-- The revocation waits in the buffer and the edge it revokes is not in force. -/
def Blocked (top next : SignedEdge platform) (l : Ledger platform) : Prop :=
  next ∈ l.buffered ∧ top ∉ l.active

theorem follow_blocked (unforked : set.Unforked) {top next : SignedEdge platform}
    (isNext : next.prior = some top.hash) (neutral : next.neutral = true)
    {l landed : Ledger platform} (enough : l.buffered.length < fuel)
    (sub : ∀ e ∈ l.buffered, e ∈ set.edges) (waits : next ∈ l.buffered)
    (only : top ∈ l.active → current = top.hash) (run : Ledger.follow fuel l current = some landed) :
    Blocked top next landed := by
  induction fuel generalizing l current with
  | zero => omega
  | succ fuel ih =>
    simp only [Ledger.follow] at run
    cases found : l.buffered.find? (·.prior = some current) with
    | none =>
      simp only [found, Option.some.injEq] at run
      subst run
      refine ⟨waits, fun inForce => ?_⟩
      have := find?_eq_none.mp found next waits
      simp [isNext, only inForce] at this
    | some x =>
      have inBuffer := mem_of_find?_eq_some found
      have isX : x.prior = some current := by simpa using find?_some found
      simp only [found] at run
      split at run
      · cases run
      · rename_i calm
        have elsewhere : current ≠ top.hash := by
          intro same
          have : x = next := unforked x (sub x inBuffer) next (sub next waits) (by rw [isX, isNext, same])
          exact calm (this ▸ neutral)
        refine ih ?_ (fun e mem => sub e (mem_of_mem_filter mem)) ?_ ?_ run
        · have shorter : (l.buffered.filter (·.prior ≠ some current)).length < l.buffered.length :=
            length_filter_lt_length_iff_exists.mpr ⟨x, inBuffer, by simp [isX]⟩
          simp only [Ledger.activate]
          omega
        · refine mem_filter.mpr ⟨waits, ?_⟩
          simpa [isNext] using Ne.symm elsewhere
        · intro inForce
          rcases mem_concat.mp inForce with old | new
          · exact absurd (only old) elsewhere
          · rw [new]

section

variable {top next e : SignedEdge platform} {l : Ledger platform} (unforked : set.Unforked)
  (isNext : next.prior = some top.hash) (neutral : next.neutral = true) (sub : ∀ e ∈ l.buffered, e ∈ set.edges)
  (blocked : Blocked top next l)
include unforked isNext neutral sub blocked

theorem land_blocked : Blocked top next (l.land e) := by
  unfold Ledger.land
  cases run : Ledger.follow (l.buffered.length + 1) (l.activate e) e.hash with
  | none => exact blocked
  | some landed =>
    have room : (l.activate e).buffered.length < l.buffered.length + 1 := Nat.lt_succ_self _
    refine follow_blocked unforked isNext neutral room sub blocked.1 ?_ run
    intro inForce
    rcases mem_concat.mp inForce with old | new
    · exact absurd old blocked.2
    · rw [new]

theorem deliver_blocked : Blocked top next (l.deliver e) := by
  have landed : Blocked top next (l.land e) := land_blocked unforked isNext neutral sub blocked
  unfold Ledger.deliver
  split
  · exact blocked
  · split
    · split
      · exact landed
      · exact blocked
    · split
      · split
        · exact blocked
        · exact landed
      · split
        · exact blocked
        · exact ⟨mem_append_left _ blocked.1, blocked.2⟩

end

theorem foldl_blocked (unforked : set.Unforked) {top next : SignedEdge platform}
    (isNext : next.prior = some top.hash) (neutral : next.neutral = true)
    (same : state.platform = platform) (order : List (SignedEdge platform × Key))
    (sub : ∀ d ∈ order, d.1 ∈ set.edges) {l : Ledger platform}
    (tracks : Tracks source target set.edges state l db) (waiting : l.Waiting)
    (blocked : Blocked top next l) : Blocked top next (order.foldl (fun l d => l.deliver d.1) l) := by
  induction order generalizing l db with
  | nil => exact blocked
  | cons d order ih =>
    obtain ⟨tracks', waiting'⟩ := tracks.deliver unforked.forkFree same (sub d (by simp)) waiting d.2
    exact ih (fun d' inOrder => sub d' (by simp [inOrder])) tracks' waiting'
      (deliver_blocked unforked isNext neutral tracks.bufferedMem blocked)

theorem unrevoked_of_agrees (agrees : set.Agrees) (unforked : set.Unforked) : set.Unrevoked := by
  intro e rooted neutral
  by_contra later
  have same : (stateOf platform).platform = platform := rfl
  let node := set.plain (stateOf platform) same
  obtain ⟨chain, top, next, climb, inSet, isNext, isNeutral⟩ :
      ∃ chain top next, set.Climb chain top ∧ next ∈ set.edges ∧ next.prior = some top.hash ∧
        next.neutral = true := by
    rcases rooted.climb with ⟨chain, climb⟩ | blocked
    · exact absurd (climb.calm e (mem_of_getLast? climb.last) neutral) later
    · exact blocked
  have topInChain : top ∈ chain := mem_of_getLast? climb.last
  have topInSet := climb.sub top topInChain
  obtain ⟨rest, perm⟩ := set.exists_order chain climb.nodup climb.sub
  obtain ⟨rest', perm'⟩ := set.exists_order [next] (nodup_singleton next) (by simpa using inSet)
  obtain ⟨sameHashes, -, -⟩ := agrees node node (fromPeer (chain ++ rest)) (fromPeer (next :: rest'))
    (by rw [fromPeer_fst]; exact perm) (by rw [fromPeer_fst]; exact perm')
  have tracksA := tracks_foldl unforked same (fromPeer (chain ++ rest))
    (fun d inOrder => perm.mem_iff.mp (mem_fromPeer inOrder)) node.tracks (by simp [Ledger.Waiting])
  have tracksB := tracks_foldl unforked same (fromPeer (next :: rest'))
    (fun d inOrder => perm'.mem_iff.mp (mem_fromPeer inOrder)) node.tracks (by simp [Ledger.Waiting])
  have inForce : top ∈ ((fromPeer (chain ++ rest)).foldl (fun l d => l.deliver d.1)
      (⟨[], [], []⟩ : Ledger platform)).active := by
    have climbed := @foldl_climb _ _ _ set [] chain climb.linked climb.nodup climb.sub climb.calm
    rw [fromPeer, map_append, foldl_append]
    rw [fromPeer] at climbed
    rw [climbed]
    exact foldl_active topInChain
  have blocked : Blocked top next ((fromPeer (next :: rest')).foldl (fun l d => l.deliver d.1)
      (⟨[], [], []⟩ : Ledger platform)) := by
    have buffered : Ledger.deliver ⟨[], [], []⟩ next = ⟨[], [], [next]⟩ := by
      simp [Ledger.deliver, Ledger.holds, Ledger.grounded, isNext]
    obtain ⟨tracks, waiting⟩ := node.tracks.deliver unforked.forkFree same inSet (by simp [Ledger.Waiting]) 0
    refine foldl_blocked unforked isNext isNeutral same (fromPeer rest') ?_ tracks waiting ?_
    · intro d inOrder
      exact perm'.mem_iff.mp (mem_cons_of_mem _ (mem_fromPeer inOrder))
    · show Blocked top next (Ledger.deliver ⟨[], [], []⟩ next)
      rw [buffered]
      exact ⟨mem_singleton_self next, by simp⟩
  have present : (process (stateOf platform) node.db (fromPeer (chain ++ rest))).hasPairEdge source target
      top.hash = true := by
    rw [tracksA.rep.hasPairEdge_iff unforked.forkFree]
    exact (Ledger.holds_of_mem unforked.forkFree topInSet tracksA.rep.activeMem).mpr inForce
  have absent : (process (stateOf platform) node.db (fromPeer (next :: rest'))).hasPairEdge source target
      top.hash = false := by
    rw [tracksB.rep.hasPairEdge_iff unforked.forkFree, Bool.eq_false_iff]
    exact mt (Ledger.holds_of_mem unforked.forkFree topInSet tracksB.rep.activeMem).mp blocked.2
  have equal : (process (stateOf platform) node.db (fromPeer (chain ++ rest))).hasPairEdge source target
      top.hash = (process (stateOf platform) node.db (fromPeer (next :: rest'))).hasPairEdge source target
      top.hash := sameHashes top.hash
  rw [present, absent] at equal
  cases equal

/-- An instance whose clock shows `clock` and whose row ids put one edge before all others. -/
def favouring (platform : Platform) (clock : Text) (favourite : Hash) : AppState where
  platform := platform
  instanceKey := 0
  edgeRowId hash := if hash = favourite then 1 else 0
  edgeClock _ := clock

theorem favourite_first (unforked : set.Unforked) (unrevoked : set.Unrevoked) {clock : Text}
    (latest : ∀ f, set.Rooted f → ∀ time, edgeStamp platform f.edge = some time → time ≤ clock)
    {e : SignedEdge platform} (rooted : set.Rooted e)
    (atClock : (edgeStamp platform e.edge).getD clock = clock) :
    let node := set.plain (favouring platform clock e.hash) rfl
    stance (process node.state node.db (fromPeer set.edges)) source target =
      if e.edge.stance = .neutral then none else some e.edge.stance := by
  intro node
  have all : ((fromPeer set.edges).map Prod.fst).Perm set.edges := by rw [fromPeer_fst]
  obtain ⟨active, rows, isRooted⟩ := node.active_iff unforked unrevoked all
  obtain ⟨f, rootedF, -, found, least⟩ := first_newest node.same rows isRooted
    (ne_nil_of_mem ((isRooted e).mpr rooted))
  have timeF : (edgeStamp platform f.edge).getD clock ≤ clock := by
    cases stamp : edgeStamp platform f.edge with
    | none => exact le_refl clock
    | some time => exact latest f rootedF time stamp
  have isE : f.hash = e.hash := by
    by_contra other
    have notNewer := least e rooted
    simp only [edgeNewer, edgeRow, edgeCreatedAtIso, node, plain, favouring, atClock, other, if_true,
      if_false, Bool.or_eq_false_iff, decide_eq_false_iff_not, not_lt, Bool.and_eq_false_iff,
      beq_eq_false_iff_ne] at notNewer
    have sameTime := le_antisymm notNewer.1 timeF
    rcases notNewer.2 with apart | noLarger
    · exact apart sameTime
    · exact noLarger (by decide)
  have sameEdge : f = e := set.hash_injective rootedF.member rooted.member isE
  rw [stance_of_first found, sameEdge]
  rfl

theorem exists_clock {e f : SignedEdge platform} (rootedE : set.Rooted e) (rootedF : set.Rooted f)
    (newestE : set.Newest e) (newestF : set.Newest f) :
    ∃ clock, (∀ g, set.Rooted g → ∀ time, edgeStamp platform g.edge = some time → time ≤ clock) ∧
      (edgeStamp platform e.edge).getD clock = clock ∧ (edgeStamp platform f.edge).getD clock = clock := by
  cases stampE : edgeStamp platform e.edge with
  | some timeE =>
    refine ⟨timeE, newestE timeE stampE, rfl, ?_⟩
    cases stampF : edgeStamp platform f.edge with
    | none => rfl
    | some timeF =>
      exact le_antisymm (newestE timeE stampE f rootedF timeF stampF) (newestF timeF stampF e rootedE timeE stampE)
  | none =>
    cases stampF : edgeStamp platform f.edge with
    | some timeF => exact ⟨timeF, newestF timeF stampF, rfl, rfl⟩
    | none =>
      obtain ⟨clock, bound⟩ : ∃ clock : Text, ∀ g ∈ set.edges, ∀ time,
          edgeStamp platform g.edge = some time → time ≤ clock := by
        induction set.edges with
        | nil => exact ⟨"", by simp⟩
        | cons g edges ih =>
          obtain ⟨clock, bound⟩ := ih
          refine ⟨max clock ((edgeStamp platform g.edge).getD ""), ?_⟩
          intro h mem time stamp
          rcases mem_cons.mp mem with rfl | inRest
          · rw [stamp]
            exact le_max_right _ _
          · exact le_trans (bound h inRest time stamp) (le_max_left _ _)
      exact ⟨clock, fun g rooted => bound g rooted.member, rfl, rfl⟩

theorem settled_of_agrees (agrees : set.Agrees) (unforked : set.Unforked) (unrevoked : set.Unrevoked) :
    set.Settled := by
  intro e f rootedE rootedF newestE newestF
  obtain ⟨clock, latest, atClockE, atClockF⟩ := exists_clock rootedE rootedF newestE newestF
  have stanceE := favourite_first unforked unrevoked latest rootedE atClockE
  have stanceF := favourite_first unforked unrevoked latest rootedF atClockF
  obtain ⟨-, equal, -⟩ := agrees (set.plain (favouring platform clock e.hash) rfl)
    (set.plain (favouring platform clock f.hash) rfl) (fromPeer set.edges) (fromPeer set.edges)
    (by rw [fromPeer_fst]) (by rw [fromPeer_fst])
  simp only at stanceE stanceF equal
  rw [stanceE, stanceF] at equal
  by_cases neutralE : e.edge.stance = .neutral <;> by_cases neutralF : f.edge.stance = .neutral <;> simp_all

end Necessary

/--
Instances agree on a pair exactly when no two edges share a predecessor, no edge that can be reached
from a first one revokes another, and all edges that may be the newest carry one stance.
-/
theorem agrees_iff (set : EdgeSet platform source target) :
    set.Agrees ↔ set.Unforked ∧ set.Unrevoked ∧ set.Settled := by
  constructor
  · intro agrees
    have unforked := unforked_of_agrees agrees
    have unrevoked := unrevoked_of_agrees agrees unforked
    exact ⟨unforked, unrevoked, settled_of_agrees agrees unforked unrevoked⟩
  · rintro ⟨unforked, unrevoked, settled⟩
    exact agrees_of_settled unforked unrevoked settled

def siblingTable : List SignedPayload :=
  [.trustEdge ⟨1, 2, .trust, 1000, none⟩, .trustEdge ⟨1, 2, .distrust, 2000, none⟩]

def siblingPlatform : Platform :=
  Platform.ofTable siblingTable

def grant : SignedEdge siblingPlatform :=
  SignedEdge.ofTable siblingTable 0 _ rfl

def refusal : SignedEdge siblingPlatform :=
  SignedEdge.ofTable siblingTable 1 _ rfl

def siblings : EdgeSet siblingPlatform 1 2 where
  edges := [grant, refusal]
  pair := by decide
  distinct := by decide

/-- The instance that sees the grant first trusts, the other one distrusts. -/
theorem siblings_disagree : ¬ siblings.Agrees ∧
      stance (process (stateOf siblingPlatform) (endpointsOnly 1 2) [(grant, 7), (refusal, 7)]) 1 2 = some .trust ∧
      stance (process (stateOf siblingPlatform) (endpointsOnly 1 2) [(refusal, 7), (grant, 7)]) 1 2 =
        some .distrust := by
  have trusts : stance (process (stateOf siblingPlatform) (endpointsOnly 1 2)
      [(grant, 7), (refusal, 7)]) 1 2 = some .trust := by decide
  have distrusts : stance (process (stateOf siblingPlatform) (endpointsOnly 1 2)
      [(refusal, 7), (grant, 7)]) 1 2 = some .distrust := by decide
  refine ⟨fun agrees => ?_, trusts, distrusts⟩
  let node := siblings.plain (stateOf siblingPlatform) rfl
  obtain ⟨-, equal, -⟩ := agrees node node [(grant, 7), (refusal, 7)] [(refusal, 7), (grant, 7)]
    (List.Perm.refl _) (List.Perm.swap _ _ _)
  exact absurd (trusts.symm.trans (equal.trans distrusts)) (by decide)

end EdgeSet

end Prismoire
