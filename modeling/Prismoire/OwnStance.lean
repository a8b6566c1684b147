import Prismoire.StanceServer

namespace Prismoire

open Lib List Function Db

/-- Which sets of a delta name a user. -/
structure Marks where
  trustAdded : Bool
  trustRemoved : Bool
  distrustAdded : Bool
  distrustRemoved : Bool
  deriving DecidableEq

def Marks.clear : Marks :=
  ⟨false, false, false, false⟩

def ViewerDelta.marks (delta : ViewerDelta) (user : Uuid) : Marks :=
  ⟨user ∈ delta.trustAdded, user ∈ delta.trustRemoved, user ∈ delta.distrustAdded, user ∈ delta.distrustRemoved⟩

/-- The sets that `apply` puts the target of a click into. -/
def Click.marks (click : Click) : Marks :=
  ⟨click.newStance = .trust && !click.cachedWasTrust, !(click.newStance = .trust) && click.cachedWasTrust,
    click.newStance = .distrust && !click.cachedWasDistrust,
    !(click.newStance = .distrust) && click.cachedWasDistrust⟩

variable {highWater seq : Nat} {pending : PendingDeltas}

section Deltas

variable {delta : ViewerDelta} {click : Click} {user viewer : Uuid}

theorem mem_place {set : Finset Uuid} {target : Uuid} {belongs : Bool} :
    user ∈ place set target belongs ↔ if user = target then belongs = true else user ∈ set := by
  unfold place
  by_cases same : user = target <;> cases belongs <;> simp [same]

theorem marks_recompute :
    (delta.recompute click).marks user = if user = click.target then click.marks else delta.marks user := by
  by_cases same : user = click.target
  · simp [ViewerDelta.marks, ViewerDelta.recompute, mem_place, Click.marks, same]
  · simp [ViewerDelta.marks, ViewerDelta.recompute, mem_place, same]

@[simp] theorem marks_default : ({} : ViewerDelta).marks user = Marks.clear := by
  simp [ViewerDelta.marks, Marks.clear]

theorem marks_of_isEmpty (empty : delta.isEmpty = true) : delta.marks user = Marks.clear := by
  simp only [ViewerDelta.isEmpty, decide_eq_true_eq] at empty
  obtain ⟨trustAdded, trustRemoved, distrustAdded, distrustRemoved⟩ := empty
  simp [ViewerDelta.marks, Marks.clear, trustAdded, trustRemoved, distrustAdded, distrustRemoved]

theorem marks_record : ((pending.record click seq).get click.viewer).marks user =
    if user = click.target then click.marks else (pending.get click.viewer).marks user := by
  rw [← marks_recompute]
  simp only [PendingDeltas.record, PendingDeltas.get, update_self]
  split
  · rename_i empty
    exact (marks_of_isEmpty empty).symm
  · rfl

theorem seq_record (some_ : ((pending.record click seq).get click.viewer).marks user ≠ Marks.clear) :
    ((pending.record click seq).get click.viewer).seq = max (pending.get click.viewer).seq seq := by
  simp only [PendingDeltas.record, PendingDeltas.get, update_self] at some_ ⊢
  split at some_
  · exact absurd marks_default some_
  · rename_i filled
    rw [if_neg filled]
    rfl

theorem get_record_other (other : viewer ≠ click.viewer) :
    (pending.record click seq).get viewer = pending.get viewer := by
  simp [PendingDeltas.record, PendingDeltas.get, update_of_ne other]

theorem get_purgeBelow : (pending.purgeBelow highWater).get viewer =
    if (pending.get viewer).seq < highWater then {} else pending.get viewer := by
  rcases found : pending.inner viewer with _ | entry
  · simp [PendingDeltas.get, PendingDeltas.purgeBelow, found]
  · simp only [PendingDeltas.get, PendingDeltas.purgeBelow, found]
    by_cases below : entry.seq < highWater
    · simp [Option.filter, below, Nat.not_le.mpr below]
    · simp [Option.filter, below, Nat.le_of_not_lt below]

theorem overlaid_marks {inGraph was now : Bool} (kept : was = now → inGraph = now) :
    overlaid inGraph (!now && was) (now && !was) = now := by
  revert kept
  cases inGraph <;> cases was <;> cases now <;> decide

end Deltas

variable {db : Db} {target : Key} {view : Viewpoint}

section Queries

variable {banned : List Key} {source : Key}

theorem Viewpoint.Keyed.inj (keyed : view.Keyed db) (sourceUser : db.hasUser source = true)
    (targetUser : db.hasUser target = true) (same : view.userId source = view.userId target) : source = target := by
  simp only [hasUser, any_eq_true, decide_eq_true_eq] at sourceUser targetUser
  obtain ⟨first, inFirst, rfl⟩ := sourceUser
  obtain ⟨second, inSecond, rfl⟩ := targetUser
  rw [inj_on_of_nodup_map keyed.1 inFirst inSecond same]

theorem Db.mem_of_currentTrustEdge {row : TrustEdgeRow} (found : db.currentTrustEdge source target = some row) :
    row ∈ db.trustEdges ∧ row.sourceUser = source ∧ row.targetUser = target := by
  have first : firstBy edgeNewer (db.pairEdges source target) = some row := (Option.filter_eq_some_iff.mp found).1
  simpa [pairEdges] using mem_of_firstBy first

variable (keyed : view.Keyed db) (sourceUser : db.hasUser source = true)
include keyed sourceUser

theorem mem_currentTrustEdges {stance : TrustStance} (targetUser : db.hasUser target = true) :
    (∃ row ∈ db.currentTrustEdges, row.trustType = stance ∧ view.userId row.sourceUser = view.userId source ∧
        view.userId row.targetUser = view.userId target) ↔
      (db.currentTrustEdge source target).map (·.trustType) = some stance := by
  simp only [currentTrustEdges, mem_filter, decide_eq_true_eq, Option.map_eq_some_iff]
  constructor
  · rintro ⟨row, ⟨inEdges, current⟩, isStance, sameSource, sameTarget⟩
    obtain ⟨fromUser, toUser⟩ := keyed.2 row inEdges
    rw [keyed.inj fromUser sourceUser sameSource, keyed.inj toUser targetUser sameTarget] at current
    exact ⟨row, current, isStance⟩
  · rintro ⟨row, current, isStance⟩
    obtain ⟨inEdges, rfl, rfl⟩ := mem_of_currentTrustEdge current
    exact ⟨row, ⟨inEdges, current⟩, isStance, rfl, rfl⟩

theorem not_banned_of_named (named : Named (view.trustQuery db banned) (view.userId source)) : source ∉ banned := by
  obtain ⟨pair, mem, isEnd⟩ := named
  simp only [Viewpoint.trustQuery, mem_map, mem_filter, decide_eq_true_eq] at mem
  obtain ⟨row, ⟨-, -, fromUser, toUser, fromFree, toFree⟩, rfl⟩ := mem
  rcases isEnd with isSource | isTarget
  · rwa [keyed.inj sourceUser fromUser isSource]
  · rwa [keyed.inj sourceUser toUser isTarget]

theorem mem_trustQuery
    (targetUser : db.hasUser target = true) (sourceFree : source ∉ banned) (targetFree : target ∉ banned) :
    (view.userId source, view.userId target) ∈ view.trustQuery db banned ↔
      (db.currentTrustEdge source target).map (·.trustType) = some .trust := by
  rw [← mem_currentTrustEdges keyed sourceUser targetUser]
  simp only [Viewpoint.trustQuery, mem_map, mem_filter, decide_eq_true_eq, Prod.mk.injEq]
  constructor
  · rintro ⟨row, ⟨current, isTrust, -⟩, same⟩
    exact ⟨row, current, isTrust, same⟩
  · rintro ⟨row, current, isTrust, sameSource, sameTarget⟩
    obtain ⟨fromUser, toUser⟩ := keyed.2 row (mem_of_mem_filter current)
    refine ⟨row, ⟨current, isTrust, fromUser, toUser, ?_, ?_⟩, sameSource, sameTarget⟩
    · rwa [keyed.inj fromUser sourceUser sameSource]
    · rwa [keyed.inj toUser targetUser sameTarget]

theorem mem_distrustQuery (targetUser : db.hasUser target = true) :
    (view.userId source, view.userId target) ∈ view.distrustQuery db ↔
      (db.currentTrustEdge source target).map (·.trustType) = some .distrust := by
  rw [← mem_currentTrustEdges keyed sourceUser targetUser]
  simp only [Viewpoint.distrustQuery, mem_map, mem_filter, decide_eq_true_eq, Prod.mk.injEq, and_assoc]

end Queries

variable {rows : List (Uuid × Uuid)} {seen : Nat}

namespace StanceServer

variable (server : StanceServer)

/-- A commit on the target is under way: its `apply` has not returned. -/
def underway (target : Key) : Bool :=
  match server.request with
  | .committed edit _ | .numbered edit _ _ => edit.target = target
  | _ => false

def latest (target : Key) : Option (StanceEdit × Nat) :=
  match server.request with
  | .committed edit commit | .numbered edit commit _ =>
    if edit.target = target then some (edit, commit) else server.applied target
  | _ => server.applied target

def queried : Option (Nat × Nat) :=
  match server.rebuild with
  | .trustRead highWater _ seen | .bothRead highWater _ _ seen => some (highWater, seen)
  | .swapped highWater => some (highWater, server.graphSeen)
  | _ => none

def trustRowsRead : Option (List (Uuid × Uuid) × Nat) :=
  match server.rebuild with
  | .trustRead _ rows seen | .bothRead _ rows _ seen => some (rows, seen)
  | _ => none

def distrustRowsRead : Option (List (Uuid × Uuid) × Nat) :=
  match server.rebuild with
  | .bothRead _ _ rows seen => some (rows, seen)
  | _ => none

variable {server}

theorem latest_of_not_underway (rest : server.underway target = false) :
    server.latest target = server.applied target := by
  unfold underway at rest
  unfold latest
  split at rest <;> simp_all

theorem latest_of_applied {entry : StanceEdit × Nat} (applied : server.applied target = some entry) :
    ∃ last, server.latest target = some last := by
  unfold latest
  split
  · split
    · exact ⟨_, rfl⟩
    · exact ⟨_, applied⟩
  · split
    · exact ⟨_, rfl⟩
    · exact ⟨_, applied⟩
  · exact ⟨_, applied⟩

theorem queried_of_trustRowsRead
    (read : server.trustRowsRead = some (rows, seen)) : ∃ highWater, server.queried = some (highWater, seen) := by
  unfold trustRowsRead at read
  unfold queried
  split at read
  · rename_i phase
    cases read
    exact ⟨_, by rw [phase]⟩
  · rename_i phase
    cases read
    exact ⟨_, by rw [phase]⟩
  · cases read

theorem queried_of_distrustRowsRead
    (read : server.distrustRowsRead = some (rows, seen)) : ∃ highWater, server.queried = some (highWater, seen) := by
  unfold distrustRowsRead at read
  unfold queried
  split at read
  · rename_i phase
    cases read
    exact ⟨_, by rw [phase]⟩
  · cases read

end StanceServer

def shownStance (stance : TrustStance) : Option TrustStance :=
  if stance = .neutral then none else some stance

def ShowsTrust (view : Viewpoint) (latest : Key → Option (StanceEdit × Nat)) (rows : List (Uuid × Uuid))
    (seen : Nat) : Prop :=
  ∀ target edit commit, latest target = some (edit, commit) → commit < seen →
    Named rows view.viewerId → Named rows (view.userId target) →
      ((view.viewerId, view.userId target) ∈ rows ↔ edit.stance = .trust)

def ShowsDistrust (view : Viewpoint) (latest : Key → Option (StanceEdit × Nat)) (rows : List (Uuid × Uuid))
    (seen : Nat) : Prop :=
  ∀ target edit commit, latest target = some (edit, commit) → commit < seen →
    ((view.viewerId, view.userId target) ∈ rows ↔ edit.stance = .distrust)

structure Recorded (view : Viewpoint) (db : Db) (commits : Nat) (target : Key) (edit : StanceEdit) (commit : Nat) :
    Prop where
  isTarget : edit.target = target
  number : commit < commits
  rows : db.pairEdges view.viewer target ≠ []
  shown : (db.currentTrustEdge view.viewer target).map (·.trustType) = shownStance edit.stance

/-- The last commits are in the database, and what has been read shows those that it came after. -/
structure StanceServer.History (view : Viewpoint) (server : StanceServer) : Prop where
  keyed : view.Keyed server.db
  recorded : ∀ target edit commit, server.latest target = some (edit, commit) →
    Recorded view server.db server.commits target edit commit
  graphSeen : server.graphSeen ≤ server.commits
  queried : ∀ highWater seen, server.queried = some (highWater, seen) →
    server.graphSeen ≤ seen ∧ seen ≤ server.commits
  graph : ∃ trustRows distrustRows, server.graph = TrustGraph.build trustRows distrustRows ∧
    ShowsTrust view server.latest trustRows server.graphSeen ∧
    ShowsDistrust view server.latest distrustRows server.graphSeen
  trustRead : ∀ rows seen, server.trustRowsRead = some (rows, seen) → ShowsTrust view server.latest rows seen
  distrustRead : ∀ rows seen, server.distrustRowsRead = some (rows, seen) → ShowsDistrust view server.latest rows seen

/-- The deltas of the viewer, against the edits that were applied and the rebuild under way. -/
structure StanceServer.Deltas (view : Viewpoint) (server : StanceServer) : Prop where
  number : ∀ target edit commit, server.applied target = some (edit, commit) →
    edit.target = target ∧ commit < server.commits
  marks : ∀ target edit commit, server.applied target = some (edit, commit) →
    (server.pending.get view.viewerId).marks (view.userId target) = (view.click edit).marks ∨
      (server.pending.get view.viewerId).marks (view.userId target) = Marks.clear ∧ commit < server.graphSeen
  named : ∀ user, (server.pending.get view.viewerId).marks user ≠ Marks.clear →
    ∃ target edit commit, view.userId target = user ∧ server.applied target = some (edit, commit)
  captured : ∀ highWater, server.rebuild = .captured highWater → highWater ≤ server.pending.seqCounter
  waits : ∀ highWater seen, server.queried = some (highWater, seen) → highWater ≤ server.pending.seqCounter
  absorbed : ∀ highWater seen, server.queried = some (highWater, seen) →
    (server.pending.get view.viewerId).seq < highWater → ∀ target edit commit,
      server.applied target = some (edit, commit) →
      (server.pending.get view.viewerId).marks (view.userId target) ≠ Marks.clear → commit < seen
  numbered : ∀ highWater seen, server.queried = some (highWater, seen) → ∀ edit commit seq,
    server.request = .numbered edit commit seq → seq < highWater → commit < seen

section Steps

variable {server : StanceServer}

theorem Recorded.knows {db : Db} {commits commit : Nat} {target : Key} {edit : StanceEdit}
    (recorded : Recorded view db commits target edit commit) (keyed : view.Keyed db) :
    db.hasUser view.viewer = true ∧ db.hasUser target = true := by
  obtain ⟨row, mem⟩ := exists_mem_of_ne_nil _ recorded.rows
  obtain ⟨inEdges, pair⟩ := mem_filter.mp mem
  obtain ⟨isViewer, isTarget⟩ := of_decide_eq_true pair
  have known := keyed.2 row inEdges
  rwa [isViewer, isTarget] at known

variable {latest latest' : Key → Option (StanceEdit × Nat)}

theorem ShowsTrust.mono (shows : ShowsTrust view latest rows seen)
    (old : ∀ target edit commit, latest' target = some (edit, commit) → commit < seen →
      latest target = some (edit, commit)) : ShowsTrust view latest' rows seen := by
  intro target edit commit last before
  exact shows target edit commit (old target edit commit last before) before

theorem ShowsDistrust.mono (shows : ShowsDistrust view latest rows seen)
    (old : ∀ target edit commit, latest' target = some (edit, commit) → commit < seen →
      latest target = some (edit, commit)) : ShowsDistrust view latest' rows seen := by
  intro target edit commit last before
  exact shows target edit commit (old target edit commit last before) before

variable {trustRows : List (Uuid × Uuid)} {applied : Key → Option (StanceEdit × Nat)} {request : EditPhase}

namespace StanceServer.History

variable (history : server.History view)
include history

theorem moved (same : ({ server with request, pending, applied } : StanceServer).latest = server.latest) :
    ({ server with request, pending, applied } : StanceServer).History view := by
  refine { history with recorded := ?_, graph := ?_, trustRead := ?_, distrustRead := ?_ }
  · rw [same]
    exact history.recorded
  · rw [same]
    exact history.graph
  · rw [same]
    exact history.trustRead
  · rw [same]
    exact history.distrustRead

theorem commit {edit : StanceEdit} {now : Nat} {id : Uuid}
    {signed : SignedMutation} (observed : server.request = .observed edit)
    (run : mutateTrustEdge view.app view.sign server.db view.viewer edit.target ⟨edit.stance, now, id⟩ =
      .ok (signed, db))
    (newest : NewestCall view.app server.db view.viewer edit.target ⟨edit.stance, now, id⟩) :
    ({ server with db, request := .committed edit server.commits, commits := server.commits + 1 } :
      StanceServer).History view := by
  obtain ⟨edge, -, -, nowIso, formatted, written⟩ := mutateTrustEdge_ok run
  obtain ⟨knowsViewer, knowsTarget, users⟩ := mutateTrustEdge_users run
  have latest : ∀ target, server.latest target = server.applied target := by
    intro target
    simp [StanceServer.latest, observed]
  have old : ∀ {seen}, seen ≤ server.commits → ∀ target found commit,
      ({ server with db, request := .committed edit server.commits, commits := server.commits + 1 } :
        StanceServer).latest target = some (found, commit) → commit < seen →
      server.latest target = some (found, commit) := by
    intro seen bound target found commit last before
    rw [latest]
    simp only [StanceServer.latest] at last
    split at last
    · cases last
      exact absurd before (Nat.not_lt.mpr bound)
    · exact last
  constructor
  case keyed =>
    refine ⟨by rw [users]; exact history.keyed.1, ?_⟩
    intro row mem
    rw [written] at mem
    simp only [hasUser, users]
    rcases mem_concat.mp mem with old | isNew
    · exact history.keyed.2 row old
    · rw [isNew, localEdgeRow, edge]
      exact ⟨knowsViewer, knowsTarget⟩
  case recorded =>
    intro target found commit last
    simp only [StanceServer.latest] at last
    split at last
    · rename_i isTarget
      cases last
      subst isTarget
      refine ⟨rfl, Nat.lt_succ_self _, ?_, currentTrustEdge_newest newest formatted edge written⟩
      rw [pairEdges_written edge written]
      simp
    · rename_i other
      have before := history.recorded target found commit ((latest target).trans last)
      have frame : db.pairEdges view.viewer target = server.db.pairEdges view.viewer target := by
        rw [pairEdges, written, filter_append, pairEdges]
        simp [localEdgeRow, edge, callEdge, other]
      refine ⟨before.isTarget, Nat.lt_succ_of_lt before.number, ?_, ?_⟩
      · rw [frame]
        exact before.rows
      · rw [currentTrustEdge, frame]
        exact before.shown
  case graphSeen => exact Nat.le_succ_of_le history.graphSeen
  case queried =>
    intro highWater seen read
    obtain ⟨after, bound⟩ := history.queried highWater seen read
    exact ⟨after, Nat.le_succ_of_le bound⟩
  case graph =>
    obtain ⟨trustRows, distrustRows, built, trust, distrust⟩ := history.graph
    exact ⟨trustRows, distrustRows, built, trust.mono (old history.graphSeen), distrust.mono (old history.graphSeen)⟩
  case trustRead =>
    intro rows seen read
    obtain ⟨highWater, queried⟩ := StanceServer.queried_of_trustRowsRead read
    exact (history.trustRead rows seen read).mono (old (history.queried highWater seen queried).2)
  case distrustRead =>
    intro rows seen read
    obtain ⟨highWater, queried⟩ := StanceServer.queried_of_distrustRowsRead read
    exact (history.distrustRead rows seen read).mono (old (history.queried highWater seen queried).2)

theorem readTrust :
    ({ server with rebuild := .trustRead highWater (view.trustQuery server.db server.banned) server.commits } :
      StanceServer).History view := by
  refine { history with queried := ?_, trustRead := ?_, distrustRead := nofun }
  · rintro _ _ ⟨⟩
    exact ⟨history.graphSeen, le_rfl⟩
  · rintro _ _ ⟨⟩ target edit commit last - viewerNamed targetNamed
    have recorded := history.recorded target edit commit last
    obtain ⟨knowsViewer, knowsTarget⟩ := recorded.knows history.keyed
    rw [Viewpoint.viewerId, mem_trustQuery history.keyed knowsViewer knowsTarget
      (not_banned_of_named history.keyed knowsViewer viewerNamed)
      (not_banned_of_named history.keyed knowsTarget targetNamed), recorded.shown, shownStance]
    cases edit.stance <;> simp

theorem readDistrust (phase : server.rebuild = .trustRead highWater trustRows seen) :
    ({ server with rebuild := .bothRead highWater trustRows (view.distrustQuery server.db) seen } :
      StanceServer).History view := by
  have read : server.trustRowsRead = some (trustRows, seen) := by rw [StanceServer.trustRowsRead, phase]
  have bounds := history.queried highWater seen (by rw [StanceServer.queried, phase])
  refine { history with queried := ?_, trustRead := ?_, distrustRead := ?_ }
  · rintro _ _ ⟨⟩
    exact bounds
  · rintro _ _ ⟨⟩
    exact history.trustRead trustRows seen read
  · rintro _ _ ⟨⟩ target edit commit last -
    have recorded := history.recorded target edit commit last
    obtain ⟨knowsViewer, knowsTarget⟩ := recorded.knows history.keyed
    rw [Viewpoint.viewerId, mem_distrustQuery history.keyed knowsViewer knowsTarget, recorded.shown, shownStance]
    cases edit.stance <;> simp

theorem swap {distrustRows : List (Uuid × Uuid)}
    (phase : server.rebuild = .bothRead highWater trustRows distrustRows seen) :
    ({ server with graph := TrustGraph.build trustRows distrustRows, rebuild := .swapped highWater,
                   graphSeen := seen } : StanceServer).History view := by
  have bounds := history.queried highWater seen (by rw [StanceServer.queried, phase])
  refine { history with
    graphSeen := bounds.2, queried := ?_, graph := ?_, trustRead := nofun, distrustRead := nofun }
  · rintro _ _ ⟨⟩
    exact ⟨le_rfl, bounds.2⟩
  · exact ⟨trustRows, distrustRows, rfl, history.trustRead trustRows seen (by rw [StanceServer.trustRowsRead, phase]),
      history.distrustRead distrustRows seen (by rw [StanceServer.distrustRowsRead, phase])⟩

theorem unread {rebuild : RebuildPhase} (phase : rebuild = .idle ∨ ∃ highWater, rebuild = .captured highWater) :
    ({ server with rebuild, pending } : StanceServer).History view := by
  rcases phase with rfl | ⟨highWater, rfl⟩
  all_goals exact { history with queried := nofun, trustRead := nofun, distrustRead := nofun }

theorem write {banned : List Key} (foreign : view.Foreign server.db db) :
    ({ server with db, banned } : StanceServer).History view := by
  refine { history with keyed := foreign.1, recorded := ?_ }
  intro target edit commit last
  have recorded := history.recorded target edit commit last
  have knows := (recorded.knows history.keyed).2
  simp only [hasUser, any_eq_true, decide_eq_true_eq] at knows
  obtain ⟨user, mem, rfl⟩ := knows
  have frame := foreign.2 user mem
  refine ⟨recorded.isTarget, recorded.number, ?_, ?_⟩
  · rw [frame]
    exact recorded.rows
  · rw [currentTrustEdge, frame]
    exact recorded.shown

end StanceServer.History

theorem update_applied {edit found : StanceEdit} {commit number : Nat}
    {target : Key} (isApplied : update applied edit.target (some (edit, commit)) target = some (found, number)) :
    target = edit.target ∧ found = edit ∧ number = commit ∨
      target ≠ edit.target ∧ applied target = some (found, number) := by
  by_cases isTarget : target = edit.target
  · rw [isTarget, update_self] at isApplied
    cases isApplied
    exact .inl ⟨isTarget, rfl, rfl⟩
  · rw [update_of_ne isTarget] at isApplied
    exact .inr ⟨isTarget, isApplied⟩

variable {commit : Nat} {edit : StanceEdit}

namespace StanceServer.Deltas

variable (deltas : server.Deltas view)
include deltas

theorem outside {db : Db} {commits : Nat}
    (later : server.commits ≤ commits) (free : ∀ edit commit seq, request ≠ .numbered edit commit seq) :
    ({ server with db, request, commits } : StanceServer).Deltas view := by
  refine { deltas with number := ?_, numbered := ?_ }
  · intro target edit commit applied
    obtain ⟨isTarget, before⟩ := deltas.number target edit commit applied
    exact ⟨isTarget, before.trans_le later⟩
  · intro _ _ _ edit commit seq numbered
    exact absurd numbered (free edit commit seq)

variable {distrustRows : List (Uuid × Uuid)}

theorem fetchOther : ({ server with pending := server.pending.fetchSeq.2 } : StanceServer).Deltas view := by
  refine { deltas with captured := ?_, waits := ?_ }
  · intro highWater phase
    exact Nat.le_succ_of_le (deltas.captured highWater phase)
  · intro highWater seen read
    exact Nat.le_succ_of_le (deltas.waits highWater seen read)

theorem fetch :
    ({ server with pending := server.pending.fetchSeq.2,
                   request := .numbered edit commit server.pending.fetchSeq.1 } : StanceServer).Deltas view := by
  refine { deltas.fetchOther with numbered := ?_ }
  rintro highWater seen read _ _ _ ⟨⟩ below
  exact absurd below (Nat.not_lt.mpr (deltas.waits highWater seen read))

theorem lockOther {click : Click} (other : click.viewer ≠ view.viewerId) :
    ({ server with pending := server.pending.record click seq } : StanceServer).Deltas view := by
  have frame : (server.pending.record click seq).get view.viewerId = server.pending.get view.viewerId :=
    get_record_other other.symm
  refine { deltas with marks := ?_, named := ?_, absorbed := ?_ }
  · simp only [frame]
    exact deltas.marks
  · simp only [frame]
    exact deltas.named
  · simp only [frame]
    exact deltas.absorbed

theorem lock (history : server.History view) (phase : server.request = .numbered edit commit seq) : ({ server with
        pending := server.pending.record (view.click edit) seq
        request := .idle
        applied := update server.applied edit.target (some (edit, commit)) } : StanceServer).Deltas view := by
  have current : server.latest edit.target = some (edit, commit) := by
    simp [StanceServer.latest, phase]
  have recorded := history.recorded _ _ _ current
  have marks : ∀ user, ((server.pending.record (view.click edit) seq).get view.viewerId).marks user =
      if user = view.userId edit.target then (view.click edit).marks
      else (server.pending.get view.viewerId).marks user := fun user => marks_record
  have apart : ∀ {target entry}, server.applied target = some entry → target ≠ edit.target →
      view.userId target ≠ view.userId edit.target := by
    intro target entry applied other same
    obtain ⟨last, isLast⟩ := StanceServer.latest_of_applied applied
    have knows := ((history.recorded _ _ _ isLast).knows history.keyed).2
    exact other (history.keyed.inj knows (recorded.knows history.keyed).2 same)
  constructor
  case number =>
    intro target found number applied
    rcases update_applied applied with ⟨rfl, rfl, rfl⟩ | ⟨-, old⟩
    · exact ⟨rfl, recorded.number⟩
    · exact deltas.number target found number old
  case marks =>
    intro target found number applied
    rw [marks]
    rcases update_applied applied with ⟨rfl, rfl, rfl⟩ | ⟨other, old⟩
    · rw [if_pos rfl]
      exact .inl rfl
    · rw [if_neg (apart old other)]
      exact deltas.marks target found number old
  case named =>
    intro user some_
    rw [marks] at some_
    split at some_
    · rename_i isTarget
      exact ⟨edit.target, edit, commit, isTarget.symm, update_self _ _ _⟩
    · obtain ⟨target, found, number, rfl, old⟩ := deltas.named user some_
      rename_i other
      have differs : target ≠ edit.target := fun same => other (by rw [same])
      exact ⟨target, found, number, rfl, (update_of_ne differs _ _).trans old⟩
  case captured => exact deltas.captured
  case waits => exact deltas.waits
  case absorbed =>
    intro highWater seen read below target found number applied some_
    have both := seq_record some_
    rw [show (view.click edit).viewer = view.viewerId from rfl] at both
    rw [both, max_lt_iff] at below
    rw [marks] at some_
    rcases update_applied applied with ⟨rfl, rfl, rfl⟩ | ⟨other, old⟩
    · exact deltas.numbered highWater seen read _ _ _ phase below.2
    · rw [if_neg (apart old other)] at some_
      exact deltas.absorbed highWater seen read below.1 target found number old some_
  case numbered => exact nofun

theorem capture : ({ server with rebuild := .captured server.pending.currentSeq } : StanceServer).Deltas view := by
  refine { deltas with captured := ?_, waits := nofun, absorbed := nofun, numbered := nofun }
  rintro _ ⟨⟩
  exact le_rfl

theorem readTrust (history : server.History view)
    {rows : List (Uuid × Uuid)} (phase : server.rebuild = .captured highWater) :
    ({ server with rebuild := .trustRead highWater rows server.commits } : StanceServer).Deltas view := by
  refine { deltas with captured := nofun, waits := ?_, absorbed := ?_, numbered := ?_ }
  · rintro _ _ ⟨⟩
    exact deltas.captured highWater phase
  · rintro _ _ ⟨⟩ - target edit commit applied -
    exact (deltas.number target edit commit applied).2
  · rintro _ _ ⟨⟩ edit commit seq numbered -
    have current : server.latest edit.target = some (edit, commit) := by
      simp [StanceServer.latest, show server.request = _ from numbered]
    exact (history.recorded _ _ _ current).number

theorem readDistrust (phase : server.rebuild = .trustRead highWater trustRows seen) :
    ({ server with rebuild := .bothRead highWater trustRows distrustRows seen } : StanceServer).Deltas view := by
  have read : server.queried = some (highWater, seen) := by rw [StanceServer.queried, phase]
  refine { deltas with captured := nofun, waits := ?_, absorbed := ?_, numbered := ?_ }
  · rintro _ _ ⟨⟩
    exact deltas.waits highWater seen read
  · rintro _ _ ⟨⟩
    exact deltas.absorbed highWater seen read
  · rintro _ _ ⟨⟩
    exact deltas.numbered highWater seen read

theorem swap (history : server.History view) {graph : TrustGraph}
    (phase : server.rebuild = .bothRead highWater trustRows distrustRows seen) :
    ({ server with graph, rebuild := .swapped highWater, graphSeen := seen } : StanceServer).Deltas view := by
  have read : server.queried = some (highWater, seen) := by rw [StanceServer.queried, phase]
  refine { deltas with marks := ?_, captured := nofun, waits := ?_, absorbed := ?_, numbered := ?_ }
  · intro target edit commit applied
    refine (deltas.marks target edit commit applied).imp_right ?_
    rintro ⟨clear, before⟩
    exact ⟨clear, before.trans_le (history.queried highWater seen read).1⟩
  · rintro _ _ ⟨⟩
    exact deltas.waits highWater seen read
  · rintro _ _ ⟨⟩
    exact deltas.absorbed highWater seen read
  · rintro _ _ ⟨⟩
    exact deltas.numbered highWater seen read

theorem purge (phase : server.rebuild = .swapped highWater) :
    ({ server with pending := server.pending.purgeBelow highWater, rebuild := .idle } : StanceServer).Deltas view := by
  have read : server.queried = some (highWater, server.graphSeen) := by rw [StanceServer.queried, phase]
  refine { deltas with marks := ?_, named := ?_, captured := nofun, waits := nofun, absorbed := nofun, numbered := nofun }
  · intro target edit commit applied
    simp only [get_purgeBelow]
    split
    · rename_i below
      rw [marks_default]
      rcases deltas.marks target edit commit applied with own | ⟨-, before⟩
      · by_cases clear : (server.pending.get view.viewerId).marks (view.userId target) = Marks.clear
        · exact .inl (clear.symm.trans own)
        · exact .inr ⟨rfl, deltas.absorbed highWater _ read below target edit commit applied clear⟩
      · exact .inr ⟨rfl, before⟩
    · exact deltas.marks target edit commit applied
  · intro user some_
    simp only [get_purgeBelow] at some_
    split at some_
    · exact absurd marks_default some_
    · exact deltas.named user some_

theorem fail : ({ server with rebuild := .idle } : StanceServer).Deltas view :=
  { deltas with captured := nofun, waits := nofun, absorbed := nofun, numbered := nofun }

end StanceServer.Deltas

/--
A graph that knows the target knows the viewer too, unless the edit is neutral; and if it was read before the
commit, it says what the edit saw wherever that was what the edit wanted.
-/
def Viewpoint.Covers (view : Viewpoint) (graph : TrustGraph) (seen : Nat) (edit : StanceEdit) (commit : Nat) : Prop :=
  view.userId edit.target ∈ graph.index → (view.viewerId ∈ graph.index ∨ edit.stance = .neutral) ∧ (seen ≤ commit →
      (edit.cachedWasTrust = decide (edit.stance = .trust) →
        graph.hasTrustEdge view.viewerId (view.userId edit.target) = edit.cachedWasTrust) ∧
      (edit.cachedWasDistrust = decide (edit.stance = .distrust) →
        graph.hasDistrustEdge view.viewerId (view.userId edit.target) = edit.cachedWasDistrust))

instance (graph : TrustGraph) (seen : Nat) (edit : StanceEdit) (commit : Nat) :
    Decidable (view.Covers graph seen edit commit) :=
  inferInstanceAs (Decidable (_ → _))

def Viewpoint.InTime (view : Viewpoint) (server : StanceServer) : StanceEvent → Prop
  | .request (.commit now id) => ∀ edit, server.request = .observed edit →
      NewestCall view.app server.db view.viewer edit.target ⟨edit.stance, now, id⟩
  | .request .lock => ∀ edit commit seq, server.request = .numbered edit commit seq →
      view.Covers server.graph server.graphSeen edit commit
  | .rebuild .swap => ∀ highWater trustRows distrustRows seen,
      server.rebuild = .bothRead highWater trustRows distrustRows seen →
      ∀ target edit commit, server.applied target = some (edit, commit) → server.underway target = false →
        view.Covers (TrustGraph.build trustRows distrustRows) seen edit commit
  | _ => True

structure StanceServer.Coherent (view : Viewpoint) (server : StanceServer) : Prop where
  history : server.History view
  deltas : server.Deltas view
  covered : ∀ target edit commit, server.applied target = some (edit, commit) → server.underway target = false →
    view.Covers server.graph server.graphSeen edit commit

namespace StanceServer.Coherent

section

variable (coherent : server.Coherent view)
include coherent

theorem requestStep {event : RequestEvent}
    (inTime : view.InTime server (.request event)) : (view.requestStep server event).Coherent view := by
  obtain ⟨history, deltas, covered⟩ := coherent
  unfold Viewpoint.requestStep
  split
  · rename_i target stance phase
    refine ⟨history.moved ?_, deltas.outside le_rfl nofun, ?_⟩
    · funext other
      simp [StanceServer.latest, phase]
    · intro other edit commit applied _
      exact covered other edit commit applied (by simp [StanceServer.underway, phase])
  · rename_i now id edit phase
    have rest : ∀ target, server.underway target = false := by
      intro target
      simp [StanceServer.underway, phase]
    split
    · rename_i signed db run
      refine ⟨history.commit phase run (inTime edit phase), deltas.outside (Nat.le_succ _) nofun, ?_⟩
      intro target found commit applied _
      exact covered target found commit applied (rest target)
    · refine ⟨history.moved ?_, deltas.outside le_rfl nofun, ?_⟩
      · funext target
        simp [StanceServer.latest, phase]
      · intro target found commit applied _
        exact covered target found commit applied (rest target)
  · rename_i edit phase
    refine ⟨history.moved ?_, deltas.outside le_rfl nofun, ?_⟩
    · funext target
      simp [StanceServer.latest, phase]
    · intro target found commit applied _
      exact covered target found commit applied (by simp [StanceServer.underway, phase])
  · rename_i edit commit phase
    refine ⟨history.moved ?_, deltas.fetch, ?_⟩
    · funext target
      simp [StanceServer.latest, phase]
    · intro target found number applied rest
      refine covered target found number applied ?_
      simpa [StanceServer.underway, phase] using rest
  · rename_i edit commit seq phase
    refine ⟨history.moved ?_, deltas.lock history phase, ?_⟩
    · funext target
      by_cases isTarget : edit.target = target
      · simp [StanceServer.latest, phase, isTarget]
      · simp [StanceServer.latest, phase, isTarget, update_of_ne (Ne.symm isTarget)]
    · intro target found number applied _
      rcases update_applied applied with ⟨-, rfl, rfl⟩ | ⟨other, old⟩
      · exact inTime _ _ seq phase
      · refine covered target found number old ?_
        simp [StanceServer.underway, phase, Ne.symm other]
  · exact ⟨history, deltas, covered⟩

theorem rebuildStep {event : RebuildEvent}
    (inTime : view.InTime server (.rebuild event)) : (view.rebuildStep server event).Coherent view := by
  obtain ⟨history, deltas, covered⟩ := coherent
  unfold Viewpoint.rebuildStep
  split
  · exact ⟨history.unread (.inr ⟨_, rfl⟩), deltas.capture, covered⟩
  · rename_i highWater phase
    exact ⟨history.readTrust, deltas.readTrust history phase, covered⟩
  · rename_i highWater trustRows seen phase
    exact ⟨history.readDistrust phase, deltas.readDistrust phase, covered⟩
  · rename_i highWater trustRows distrustRows seen phase
    exact ⟨history.swap phase, deltas.swap history phase, inTime highWater trustRows distrustRows seen phase⟩
  · rename_i highWater phase
    exact ⟨history.unread (.inl rfl), deltas.purge phase, covered⟩
  · exact ⟨history.unread (.inl rfl), deltas.fail, covered⟩
  · exact ⟨history.unread (.inl rfl), deltas.fail, covered⟩
  · exact ⟨history.unread (.inl rfl), deltas.fail, covered⟩
  · exact ⟨history, deltas, covered⟩

theorem otherStep (event : OtherEvent) : (view.otherStep server event).Coherent view := by
  obtain ⟨history, deltas, covered⟩ := coherent
  cases event with
  | write db banned =>
    dsimp only [Viewpoint.otherStep]
    split
    · rename_i foreign
      exact ⟨history.write foreign, { deltas with }, covered⟩
    · exact ⟨history, deltas, covered⟩
  | fetch => exact ⟨history.moved rfl, deltas.fetchOther, covered⟩
  | lock click seq =>
    dsimp only [Viewpoint.otherStep]
    split
    · exact ⟨history, deltas, covered⟩
    · rename_i other
      exact ⟨history.moved rfl, deltas.lockOther other, covered⟩

theorem step {event : StanceEvent} (inTime : view.InTime server event) : (view.step server event).Coherent view := by
  cases event with
  | request event => exact coherent.requestStep inTime
  | rebuild event => exact coherent.rebuildStep inTime
  | other event => exact coherent.otherStep event

end

theorem start {db : Db} (keyed : view.Keyed db) (banned : List Key) :
    ({ db, banned } : StanceServer).Coherent view where
  history := ⟨keyed, nofun, le_rfl, nofun, ⟨[], [], rfl, nofun, nofun⟩, nofun, nofun⟩
  deltas := by
    refine ⟨nofun, nofun, ?_, nofun, nofun, nofun, nofun⟩
    intro user some_
    exact absurd marks_default some_
  covered := nofun

end StanceServer.Coherent

theorem StanceServer.History.edges (history : server.History view)
    (last : server.latest target = some (edit, commit)) (before : commit < server.graphSeen)
    (viewerIn : view.viewerId ∈ server.graph.index) (targetIn : view.userId target ∈ server.graph.index) :
    server.graph.hasTrustEdge view.viewerId (view.userId target) = decide (edit.stance = .trust) ∧
      server.graph.hasDistrustEdge view.viewerId (view.userId target) = decide (edit.stance = .distrust) := by
  obtain ⟨trustRows, distrustRows, built, trust, distrust⟩ := history.graph
  rw [built, TrustGraph.mem_index_build] at viewerIn targetIn
  rw [built, hasTrustEdge_build viewerIn targetIn, hasDistrustEdge_build viewerIn targetIn]
  exact ⟨decide_eq_decide.mpr (trust target edit commit last before viewerIn targetIn),
    decide_eq_decide.mpr (distrust target edit commit last before)⟩

theorem StanceServer.Coherent.effective (coherent : server.Coherent view)
    (applied : server.applied target = some (edit, commit)) (rest : server.underway target = false)
    (targetIn : view.userId target ∈ server.graph.index) :
    effectiveEdge server.graph (server.pending.get view.viewerId) view.viewerId (view.userId target) =
      (decide (edit.stance = .trust), decide (edit.stance = .distrust)) := by
  have isTarget := (coherent.deltas.number target edit commit applied).1
  have last := (StanceServer.latest_of_not_underway rest).trans applied
  obtain ⟨node, unseen⟩ := coherent.covered target edit commit applied rest (by rwa [isTarget])
  rw [isTarget] at unseen
  by_cases viewerIn : view.viewerId ∈ server.graph.index
  · rw [effectiveEdge_eq viewerIn targetIn]
    -- A graph read after the commit shows it; one read before shows what the edit left as it saw it.
    have agrees : (edit.cachedWasTrust = decide (edit.stance = .trust) →
          server.graph.hasTrustEdge view.viewerId (view.userId target) = decide (edit.stance = .trust)) ∧
        (edit.cachedWasDistrust = decide (edit.stance = .distrust) →
          server.graph.hasDistrustEdge view.viewerId (view.userId target) = decide (edit.stance = .distrust)) := by
      by_cases before : commit < server.graphSeen
      · obtain ⟨trust, distrust⟩ := coherent.history.edges last before viewerIn targetIn
        exact ⟨fun _ => trust, fun _ => distrust⟩
      · obtain ⟨trust, distrust⟩ := unseen (Nat.le_of_not_lt before)
        exact ⟨fun same => (trust same).trans same, fun same => (distrust same).trans same⟩
    rcases coherent.deltas.marks target edit commit applied with own | ⟨clear, before⟩
    · simp only [ViewerDelta.marks, Click.marks, Viewpoint.click, Marks.mk.injEq] at own
      obtain ⟨trustAdded, trustRemoved, distrustAdded, distrustRemoved⟩ := own
      rw [trustAdded, trustRemoved, distrustAdded, distrustRemoved]
      exact Prod.ext (overlaid_marks agrees.1) (overlaid_marks agrees.2)
    · obtain ⟨trust, distrust⟩ := coherent.history.edges last before viewerIn targetIn
      simp only [ViewerDelta.marks, Marks.clear, Marks.mk.injEq] at clear
      obtain ⟨trustAdded, trustRemoved, distrustAdded, distrustRemoved⟩ := clear
      rw [trustAdded, trustRemoved, distrustAdded, distrustRemoved, trust, distrust]
      simp [overlaid]
  · rw [effectiveEdge_of_absent viewerIn, node.resolve_left viewerIn]
    rfl

/--
Over any interleaving of the viewer's requests with rebuilds and other writers in which every commit is the
newest row of its pair and every graph covers the edits overlaid on it: from the return of `apply` to the
viewer's next commit on the target, the effective edge is the stance last committed; and a delta that a purge
removes has only edits that were committed before the current graph was read.
-/
theorem reads_own_stance (view : Viewpoint) (db : Db) (banned : List Key) (keyed : view.Keyed db)
    (events : List StanceEvent) (inTime : MeetAlong view.step view.InTime { db, banned } events) :
    let server := events.foldl view.step { db, banned }
    (∀ target edit commit, server.applied target = some (edit, commit) → server.underway target = false →
      (server.db.currentTrustEdge view.viewer target).map (·.trustType) = shownStance edit.stance ∧
      (view.userId target ∈ server.graph.index →
        effectiveEdge server.graph (server.pending.get view.viewerId) view.viewerId (view.userId target) =
          (decide (edit.stance = .trust), decide (edit.stance = .distrust)))) ∧
    ∀ highWater, server.rebuild = .swapped highWater → (server.pending.get view.viewerId).seq < highWater →
      ∀ user, (server.pending.get view.viewerId).marks user ≠ Marks.clear →
        ∃ target edit commit, view.userId target = user ∧ server.applied target = some (edit, commit) ∧
          commit < server.graphSeen ∧
          (server.underway target = false → view.viewerId ∈ server.graph.index → user ∈ server.graph.index →
            server.graph.hasTrustEdge view.viewerId user = decide (edit.stance = .trust) ∧
            server.graph.hasDistrustEdge view.viewerId user = decide (edit.stance = .distrust)) := by
  intro server
  have coherent : server.Coherent view :=
    inTime.invariant (fun _ _ coherent inTime => coherent.step inTime) (.start keyed banned)
  refine ⟨?_, ?_⟩
  · intro target edit commit applied rest
    have last := (StanceServer.latest_of_not_underway rest).trans applied
    exact ⟨(coherent.history.recorded target edit commit last).shown, coherent.effective applied rest⟩
  · intro highWater phase below user some_
    obtain ⟨target, edit, commit, rfl, applied⟩ := coherent.deltas.named user some_
    have read : server.queried = some (highWater, server.graphSeen) := by rw [StanceServer.queried, phase]
    have before := coherent.deltas.absorbed highWater _ read below target edit commit applied some_
    refine ⟨target, edit, commit, rfl, applied, before, ?_⟩
    intro rest viewerIn targetIn
    exact coherent.history.edges ((StanceServer.latest_of_not_underway rest).trans applied) before viewerIn targetIn

end Steps

/-- The first viewer of a small instance, whose ids are the ends of the keys. -/
def firstViewer : Viewpoint where
  app := tieState
  sign := tieSign
  userId key := key.setWidth 128
  viewer := 1

def trustRow (id : Uuid) (source target : Key) : TrustEdgeRow :=
  ⟨id, source, target, .trust, "00001", [], none, 0⟩

def chainDb : Db where
  users := [⟨1, "a", "a", .invite, none, false⟩, ⟨2, "b", "b", .invite, none, false⟩,
    ⟨3, "c", "c", .invite, none, false⟩]
  signingKeys := [⟨1, true⟩]
  trustEdges := [trustRow 10 1 3, trustRow 11 3 2]

def clickOnSecond (stance : TrustStance) (now : Nat) (id : Uuid) : List StanceEvent :=
  [.request (.observe 2 stance), .request (.commit now id), .request .fetch, .request .lock]

def readEvents : List StanceEvent :=
  [.rebuild .capture, .rebuild .readTrust, .rebuild .readDistrust]

def absorbedRun : List StanceEvent :=
  readEvents ++ [.rebuild .swap, .rebuild .purge] ++ clickOnSecond .trust 5 1 ++ readEvents ++ [.rebuild .swap]

theorem absorbed_run_reads :
    let server := absorbedRun.foldl firstViewer.step { db := chainDb }
    server.applied 2 = some (⟨2, .trust, false, false⟩, 0) ∧ server.rebuild = .swapped 2 ∧
      effectiveEdge server.graph (server.pending.get 1) 1 2 = (true, false) ∧
      (server.pending.get 1).marks 2 = ⟨true, false, false, false⟩ ∧ 0 < server.graphSeen := by
  intro server
  have applied : server.applied 2 = some (⟨2, .trust, false, false⟩, 0) := by decide +kernel
  have phase : server.rebuild = .swapped 2 := by decide +kernel
  have marks : (server.pending.get 1).marks 2 = ⟨true, false, false, false⟩ := by decide +kernel
  have inTime : MeetAlong firstViewer.step firstViewer.InTime { db := chainDb } absorbedRun := by
    refine ⟨trivial, trivial, trivial, ?_, trivial, trivial, ?_, trivial, ?_, trivial, trivial, trivial, ?_, trivial⟩
    · intro _ _ _ _ _ target edit commit isApplied
      cases isApplied
    · intro edit observed nowIso formatted row mem
      cases observed
      have none_ : chainDb.pairEdges 1 2 = [] := by decide
      have inNone : row ∈ chainDb.pairEdges 1 2 := mem
      rw [none_] at inNone
      exact absurd inNone not_mem_nil
    · intro edit commit seq numbered
      cases numbered
      decide +kernel
    · intro highWater trustRows distrustRows seen read target edit commit isApplied _
      cases read
      rcases update_applied isApplied with ⟨-, rfl, rfl⟩ | ⟨-, none_⟩
      · decide +kernel
      · cases none_
  obtain ⟨own, absorbed⟩ := reads_own_stance firstViewer chainDb [] (by decide) absorbedRun inTime
  refine ⟨applied, phase, ?_, marks, ?_⟩
  · exact (own 2 _ _ applied (by decide +kernel)).2 (by decide +kernel)
  · obtain ⟨target, edit, commit, -, -, before, -⟩ := absorbed 2 phase (by decide +kernel) 2 (by decide +kernel)
    exact (Nat.zero_le _).trans_lt before

/-- A revocation while a rebuild, which has read the grant before it, is under way. -/
def cancelledRun : List StanceEvent :=
  readEvents ++ [.rebuild .swap, .rebuild .purge] ++ clickOnSecond .trust 5 1 ++ readEvents ++
    clickOnSecond .neutral 6 2 ++ [.rebuild .swap]

/-- The neutral edit cancels out against the old graph, its entry is dropped, and the new graph has the grant. -/
theorem cancelled_edit_lost :
    let server := cancelledRun.foldl firstViewer.step { db := chainDb }
    (server.applied 2).map (·.1.stance) = some .neutral ∧ server.underway 2 = false ∧
      (server.db.currentTrustEdge 1 2).isNone ∧ 2 ∈ server.graph.index ∧
      effectiveEdge server.graph (server.pending.get 1) 1 2 = (true, false) := by
  decide +kernel

end Prismoire
