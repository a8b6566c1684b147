import Prismoire.EdgeBackfill
import Prismoire.EdgeWalk

namespace Prismoire

open Lib

def CalmBuffer (platform : Platform) (db : Db) : Prop :=
  ∀ row ∈ db.pendingTrustEdges, ∀ edge, platform.parse row.payload = some (.trustEdge edge) → edge.stance ≠ .neutral

/-- An arrival leaves the users and their homes alone. -/
structure PeopleKept (db after : Db) : Prop where
  users : after.users = db.users
  homes : after.userHomes = db.userHomes

variable {state : AppState} {db after : Db}

theorem PeopleKept.trans {mid : Db} (first : PeopleKept db mid) (second : PeopleKept mid after) : PeopleKept db after :=
  ⟨second.users.trans first.users, second.homes.trans first.homes⟩

theorem PeopleKept.walk (db : Db) : EdgeArrival state (fun _ _ _ _ => True) (PeopleKept db) where
  buffered _ _ _ := trivial
  project held _ _ _ _ _ := held.trans ⟨rfl, rfl⟩
  erase held _ run := by
    rw [Db.erasePayloads_frame run]
    exact held.trans ⟨rfl, rfl⟩
  store held _ := held.trans ⟨rfl, rfl⟩
  enqueue held _ _ := held.trans ⟨rfl, rfl⟩
  dequeue _ _ held := held.trans ⟨rfl, rfl⟩
  frontier _ held := held.trans ⟨rfl, rfl⟩

theorem applyOneEdgeInner_people {wire : Bytes} {peer : Key} {answer : EdgeResult × Option EdgeRecovery}
    (run : applyOneEdgeInner state db wire peer = .ok (answer, after)) : PeopleKept db after :=
  (PeopleKept.walk db).apply ⟨rfl, rfl⟩ (fun _ _ _ _ _ => trivial) run

theorem CalmBuffer.walk : EdgeArrival state
    (fun payload _ _ edge => state.platform.parse payload = some (.trustEdge edge) ∧ edge.stance ≠ .neutral)
    (CalmBuffer state.platform) where
  buffered calm mem parses := ⟨parses, calm _ mem _ parses⟩
  project calm _ _ _ _ _ := calm
  erase calm _ run := by
    rw [Db.erasePayloads_frame run]
    exact calm
  store calm _ := calm
  enqueue calm fit _ := by
    refine forall_mem_concat.mpr ⟨calm, fun edge parses => ?_⟩
    cases fit.1.symm.trans parses
    exact fit.2
  dequeue _ _ calm row mem := calm row (List.mem_of_mem_filter mem)
  frontier _ calm := calm

theorem receiveEdge_calm {edge : TrustEdge} {payload : Bytes} (hash : Hash) (signature : Bytes) (peer : Key)
    (parses : state.platform.parse payload = some (.trustEdge edge)) (steady : edge.stance ≠ .neutral)
    (calm : CalmBuffer state.platform db) :
    ∃ result, receiveEdge state db edge hash signature payload peer = .ok result := by
  refine CalmBuffer.walk.receive_total ?_ calm ⟨parses, steady⟩
  intro db payload signature hash edge _ fit
  exact ⟨_, by simp only [insertTrustEdge, if_neg fit.2]; rfl⟩

end Prismoire
