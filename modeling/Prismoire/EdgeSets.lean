import Prismoire.EdgeDelivery

namespace Prismoire

open Lib List Option

variable {platform : Platform} {source target : Key}

/-- Validly signed trust-edges on one pair, under distinct hashes; forks are allowed. -/
structure EdgeSet (platform : Platform) (source target : Key) where
  edges : List (SignedEdge platform)
  pair : ∀ e ∈ edges, e.edge.fromKey = source ∧ e.edge.toKey = target
  distinct : (edges.map (·.hash)).Nodup

namespace EdgeSet

section

variable (set : EdgeSet platform source target)

def Unforked : Prop :=
  ∀ e ∈ set.edges, ∀ f ∈ set.edges, e.prior = f.prior → e = f

inductive Rooted (set : EdgeSet platform source target) : SignedEdge platform → Prop
  | root {e} : e ∈ set.edges → e.prior = none → Rooted set e
  | next {e f} : Rooted set e → f ∈ set.edges → f.prior = some e.hash → Rooted set f

def Unrevoked : Prop :=
  ∀ e, set.Rooted e → e.neutral = true → e.prior = none

theorem hash_injective {e f : SignedEdge platform}
    (inE : e ∈ set.edges) (inF : f ∈ set.edges) (same : e.hash = f.hash) : e = f :=
  inj_on_of_nodup_map set.distinct inE inF same

end

variable {e : SignedEdge platform} {state : AppState}

theorem Rooted.member {set : EdgeSet platform source target}
    (rooted : set.Rooted e) : e ∈ set.edges := by
  cases rooted with
  | root mem => exact mem
  | next _ mem => exact mem

theorem Unforked.forkFree {set : EdgeSet platform source target} (unforked : set.Unforked) :
    ForkFree source target set.edges :=
  ⟨set.pair, fun _ inE _ inF => set.hash_injective inE inF, unforked⟩

theorem rooted_of_linked {set : EdgeSet platform source target} {start : Option Hash}
    {active : List (SignedEdge platform)} (linked : Linked SignedEdge.hash SignedEdge.prior start active)
    (sub : ∀ e ∈ active, e ∈ set.edges)
    (from_root : ∀ hash, start = some hash → ∃ e, set.Rooted e ∧ e.hash = hash) :
    ∀ e ∈ active, set.Rooted e := by
  induction active generalizing start with
  | nil => simp
  | cons f rest ih =>
    have rootedF : set.Rooted f := by
      cases prior : start with
      | none => exact .root (sub f (by simp)) (linked.1.trans prior)
      | some hash =>
        obtain ⟨e, rooted, rfl⟩ := from_root hash prior
        exact .next rooted (sub f (by simp)) (linked.1.trans prior)
    intro e mem
    rcases mem_cons.mp mem with rfl | inRest
    · exact rootedF
    · refine ih linked.2 (fun g inRest => sub g (mem_cons_of_mem _ inRest)) ?_ e inRest
      intro hash same
      exact ⟨f, rootedF, some.inj same⟩

section Ledger

variable {set : EdgeSet platform source target} {l : Ledger platform}

theorem Tracks.rooted {db : Db}
    (tracks : Tracks source target set.edges state l db) : ∀ e ∈ l.active, set.Rooted e :=
  rooted_of_linked tracks.rep.linked tracks.rep.activeMem (by simp)

variable {fuel : Nat} {current : Hash} {landed : Ledger platform}

theorem follow_keeps (unforked : set.Unforked)
    (sub : ∀ e ∈ l.buffered, e ∈ set.edges) (run : Ledger.follow fuel l current = some landed) :
    ∀ e, (e ∈ l.active → e ∈ landed.active) ∧ (e ∈ l.buffered → e ∈ landed.active ∨ e ∈ landed.buffered) := by
  induction fuel generalizing l current with
  | zero =>
    cases run
    exact fun e => ⟨id, .inr⟩
  | succ fuel ih =>
    simp only [Ledger.follow] at run
    cases found : l.buffered.find? (·.prior = some current) with
    | none =>
      simp only [found, some.injEq] at run
      subst run
      exact fun e => ⟨id, .inr⟩
    | some next =>
      simp only [found] at run
      split at run
      · cases run
      · have inBuffer := mem_of_find?_eq_some found
        have isNext : next.prior = some current := by simpa using find?_some found
        have rest := ih (fun e mem => sub e (mem_of_mem_filter mem)) run
        intro e
        obtain ⟨stays, waits⟩ := rest e
        refine ⟨fun inActive => stays (mem_append_left _ inActive), fun mem => ?_⟩
        by_cases same : e.prior = some current
        · have : e = next := unforked e (sub e mem) next (sub next inBuffer) (same.trans isNext.symm)
          exact .inl (stays (mem_append_right _ (by simp [this])))
        · exact waits (mem_filter.mpr ⟨mem, by simpa using same⟩)

theorem follow_some (unrevoked : set.Unrevoked) {tip : SignedEdge platform}
    (rooted : set.Rooted tip) (sub : ∀ e ∈ l.buffered, e ∈ set.edges) :
    ∃ landed, Ledger.follow fuel l tip.hash = some landed := by
  induction fuel generalizing l tip with
  | zero => exact ⟨l, rfl⟩
  | succ fuel ih =>
    simp only [Ledger.follow]
    cases found : l.buffered.find? (·.prior = some tip.hash) with
    | none => exact ⟨l, rfl⟩
    | some next =>
      have inBuffer := mem_of_find?_eq_some found
      have isNext : next.prior = some tip.hash := by simpa using find?_some found
      have rootedNext : set.Rooted next := .next rooted (sub next inBuffer) isNext
      have calm : next.neutral = false := by
        rw [Bool.eq_false_iff]
        intro neutral
        rw [unrevoked next rootedNext neutral] at isNext
        cases isNext
      simp only [calm, Bool.false_eq_true, if_false]
      exact ih rootedNext fun e mem => sub e (mem_of_mem_filter mem)

theorem follow_archived (nothing : l.archived = [])
    (run : Ledger.follow fuel l current = some landed) : landed.archived = [] := by
  induction fuel generalizing l current with
  | zero =>
    cases run
    exact nothing
  | succ fuel ih =>
    simp only [Ledger.follow] at run
    split at run
    · cases run
      exact nothing
    · split at run
      · cases run
      · refine ih ?_ run
        simp [Ledger.activate, nothing]

theorem rooted_of_grounded (mem : e ∈ set.edges)
    (subActive : ∀ f ∈ l.active, set.Rooted f) (ground : l.grounded e = true) : set.Rooted e := by
  cases prior : e.prior with
  | none => exact .root mem prior
  | some hash =>
    rw [Ledger.grounded, prior, all_some] at ground
    obtain ⟨f, inActive, rfl⟩ := Ledger.holds_iff.mp ground
    exact .next (subActive f inActive) mem prior

/-- What a delivery leaves of an instance that archives nothing: what was in force stays, what was
buffered stays or lands, and the delivered edge is in force or buffered. -/
structure Kept (l after : Ledger platform) (e : SignedEdge platform) : Prop where
  nothing : after.archived = []
  arrived : e ∈ after.active ∨ e ∈ after.buffered
  active : ∀ f ∈ l.active, f ∈ after.active
  buffered : ∀ f ∈ l.buffered, f ∈ after.active ∨ f ∈ after.buffered

theorem land_keeps (unforked : set.Unforked) (unrevoked : set.Unrevoked)
    (rooted : set.Rooted e) (sub : ∀ f ∈ l.buffered, f ∈ set.edges) (nothing : l.archived = []) :
    Kept l (l.land e) e := by
  have subAfter : ∀ f ∈ (l.activate e).buffered, f ∈ set.edges := sub
  obtain ⟨landed, run⟩ : ∃ landed, Ledger.follow (l.buffered.length + 1) (l.activate e) e.hash = some landed :=
    follow_some unrevoked rooted subAfter
  have isLanded : l.land e = landed := by
    rw [Ledger.land, run, getD_some]
  have keeps := follow_keeps unforked subAfter run
  rw [isLanded]
  refine ⟨follow_archived (by simp [Ledger.activate, nothing]) run, .inl ((keeps e).1 ?_), ?_, ?_⟩
  · simp [Ledger.activate]
  · intro f inActive
    exact (keeps f).1 (by simp [Ledger.activate, inActive])
  · intro f inBuffer
    exact (keeps f).2 inBuffer

theorem deliver_keeps (unforked : set.Unforked) (unrevoked : set.Unrevoked)
    (mem : e ∈ set.edges) (subActive : ∀ f ∈ l.active, set.Rooted f)
    (subBuffer : ∀ f ∈ l.buffered, f ∈ set.edges) (nothing : l.archived = []) :
    Kept l (l.deliver e) e := by
  have unarchived : Ledger.holds l.archived e.hash = false := by simp [nothing, Ledger.holds]
  simp only [Ledger.deliver, unarchived, Bool.false_eq_true, if_false]
  split
  · rename_i held
    obtain ⟨f, inActive, same⟩ := Ledger.holds_iff.mp held
    obtain rfl := set.hash_injective (subActive f inActive).member mem same
    exact ⟨nothing, .inl inActive, fun _ => id, fun _ => .inr⟩
  · split
    · rename_i ground
      have rooted := rooted_of_grounded mem subActive ground
      have calm : (e.neutral && e.prior.isSome) = false := by
        rw [Bool.eq_false_iff, ne_eq, Bool.and_eq_true]
        rintro ⟨neutral, later⟩
        rw [unrevoked e rooted neutral] at later
        cases later
      simp only [calm, Bool.false_eq_true, if_false]
      exact land_keeps unforked unrevoked rooted subBuffer nothing
    · split
      · rename_i taken
        obtain ⟨f, inBuffer, same⟩ := List.any_eq_true.mp taken
        obtain rfl := unforked f (subBuffer f inBuffer) e mem (by simpa using same)
        exact ⟨nothing, .inr inBuffer, fun _ => id, fun _ => .inr⟩
      · exact ⟨nothing, .inr (by simp), fun _ => id, fun f inBuffer => .inr (by simp [inBuffer])⟩

end Ledger

/-- An instance that knows both endpoints and has seen no trust-edge; its row ids and clock are its own. -/
structure Instance (set : EdgeSet platform source target) where
  state : AppState
  db : Db
  same : state.platform = platform
  sourceKnown : db.hasUser source = true
  targetKnown : db.hasUser target = true
  noEdges : db.trustEdges = []
  noPending : db.pendingTrustEdges = []
  objects : ∀ row ∈ db.signedObjects, row.innerClass ≠ .trustEdge ∧ ∀ e ∈ set.edges, row.canonicalHash ≠ e.hash
  unique : ∀ row ∈ db.signedObjects, ∀ other ∈ db.signedObjects, row.canonicalHash = other.canonicalHash → row = other

def process (state : AppState) (db : Db) (order : List (SignedEdge platform × Key)) : Db :=
  order.foldl (fun db d => deliverEdge state db d.1.wire d.2) db

variable {set : EdgeSet platform source target}

theorem Instance.tracks (node : Instance set) : Tracks source target set.edges node.state ⟨[], [], []⟩ node.db :=
  ⟨⟨by simpa using node.noEdges, by simp, by simp, by simp, trivial,
    fun row stored => .inr (node.objects row stored), by simp, by simp, by simp, node.unique⟩,
    node.sourceKnown, node.targetKnown, by simpa using node.noPending, by simp, by simp, by simp,
    nodup_nil⟩

theorem tracks_process (unforked : set.Unforked) (unrevoked : set.Unrevoked)
    (same : state.platform = platform) (order : List (SignedEdge platform × Key))
    (sub : ∀ d ∈ order, d.1 ∈ set.edges) {l : Ledger platform} {db : Db}
    (tracks : Tracks source target set.edges state l db) (waiting : l.Waiting) (nothing : l.archived = []) :
    ∃ after, Tracks source target set.edges state after (process state db order) ∧ after.Waiting ∧
      after.archived = [] ∧ (∀ f ∈ l.active, f ∈ after.active) ∧
      (∀ f ∈ l.buffered, f ∈ after.active ∨ f ∈ after.buffered) ∧
      ∀ d ∈ order, d.1 ∈ after.active ∨ d.1 ∈ after.buffered := by
  induction order generalizing l db with
  | nil => exact ⟨l, tracks, waiting, nothing, fun _ => id, fun _ => .inr, by simp⟩
  | cons d order ih =>
    have inSet := sub d (by simp)
    obtain ⟨tracks', waiting'⟩ := tracks.deliver unforked.forkFree same inSet waiting d.2
    have kept := deliver_keeps unforked unrevoked inSet (Tracks.rooted tracks) tracks.bufferedMem nothing
    obtain ⟨after, final, waits, nothing', active, buffered, arrived⟩ :=
      ih (fun d' inOrder => sub d' (by simp [inOrder])) tracks' waiting' kept.nothing
    refine ⟨after, final, waits, nothing', fun f inActive => active f (kept.active f inActive), ?_, ?_⟩
    · intro f inBuffer
      rcases kept.buffered f inBuffer with landed | stays
      · exact .inl (active f landed)
      · exact buffered f stays
    · intro d' inOrder
      rcases mem_cons.mp inOrder with rfl | inOrder
      · rcases kept.arrived with landed | stays
        · exact .inl (active _ landed)
        · exact buffered _ stays
      · exact arrived d' inOrder

theorem Instance.active_iff (node : Instance set) (unforked : set.Unforked) (unrevoked : set.Unrevoked)
    {order : List (SignedEdge platform × Key)} (all : (order.map Prod.fst).Perm set.edges) :
    ∃ active : List (SignedEdge platform), (process node.state node.db order).trustEdges =
        active.map (fun e => edgeRow node.state e.edge e.hash e.signature) ∧
      ∀ e, e ∈ active ↔ set.Rooted e := by
  have sub : ∀ d ∈ order, d.1 ∈ set.edges := fun d inOrder =>
    all.mem_iff.mp (List.mem_map.mpr ⟨d, inOrder, rfl⟩)
  obtain ⟨l, tracks, waiting, -, -, -, arrived⟩ := tracks_process unforked unrevoked node.same order sub
    node.tracks (by simp [Ledger.Waiting]) rfl
  refine ⟨l.active, tracks.rep.activeRows, fun e => ⟨Tracks.rooted tracks e, fun rooted => ?_⟩⟩
  have here : ∀ f ∈ set.edges, f ∈ l.active ∨ f ∈ l.buffered := by
    intro f inSet
    obtain ⟨d, inOrder, rfl⟩ := List.mem_map.mp (all.mem_iff.mpr inSet)
    exact arrived d inOrder
  induction rooted with
  | root inSet isRoot =>
    rcases here _ inSet with inForce | inBuffer
    · exact inForce
    · exact absurd isRoot (tracks.bufferedPrior _ inBuffer)
  | @next e f rooted inSet isNext ih =>
    rcases here f inSet with inForce | inBuffer
    · exact inForce
    · rcases tracks.rep.linked.tip_or_successor ih with atTip | ⟨g, inActive, after⟩
      · exact absurd (isNext.trans atTip.symm) (waiting f inBuffer)
      · exact unforked g (tracks.rep.activeMem g inActive) f inSet (after.trans isNext.symm) ▸ inActive

end EdgeSet

end Prismoire
