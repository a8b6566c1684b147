import Prismoire.InterestRouting
import Prismoire.Lib.BitSet

namespace Prismoire

open Lib List Option Function

def ForwardingClass.redundancyCap : ForwardingClass → Nat
  | .move => 5
  | _ => 2

def tPropagateMax : Nat := 3600 * 10 ^ 9

structure PeerIndex where
  byPubkey : Key → Option Nat := fun _ => none
  next : Nat := 0

def PeerIndex.indexFor (index : PeerIndex) (peer : Key) : Nat × PeerIndex :=
  match index.byPubkey peer with
  | some i => (i, index)
  | none =>
    (index.next, { byPubkey := update index.byPubkey peer (some index.next), next := index.next + 1 })

structure ForwardingEntry where
  forwardedTo : BitSet := {}
  createdAt : Nat

/-- The cache evicts nothing here. -/
structure ForwardingLru where
  cache : Hash → Option ForwardingEntry := fun _ => none
  peerIndex : PeerIndex := {}

def ForwardingLru.getOrInitEntry (lru : ForwardingLru) (hash : Hash) (now : Nat) : ForwardingEntry :=
  match lru.cache hash with
  | some entry => if now - entry.createdAt < tPropagateMax then entry else { createdAt := now }
  | none => { createdAt := now }

/-- The variables of the pick under the lock of the bitset. -/
structure Picking where
  bits : BitSet
  index : PeerIndex
  picks : List Key := []

def pickPeers (cap : Nat) (arrivedFrom : Option Key) : List Key → Picking → Picking
  | [], s => s
  | peer :: rest, s =>
    if some peer = arrivedFrom then pickPeers cap arrivedFrom rest s
    else
      let (idx, index) := s.index.indexFor peer
      if s.bits.contains idx then pickPeers cap arrivedFrom rest { s with index }
      else if cap ≤ s.bits.popcount then { s with index }
      else pickPeers cap arrivedFrom rest { bits := s.bits.set idx, index, picks := s.picks ++ [peer] }

/-- A call of `forward_inner`, with the peers that are interested and what their age ceilings say of the edge. -/
structure ForwardCall where
  hash : Hash
  cls : ForwardingClass
  candidates : List Key
  arrivedFrom : Option Key
  ceiling : Option (Key → Bool)
  now : Nat

def ForwardCall.admitted (call : ForwardCall) : List Key :=
  match call.ceiling with
  | some admits => call.candidates.filter admits
  | none => call.candidates

def forwardInner (lru : ForwardingLru) (call : ForwardCall) : List Key × ForwardingLru :=
  if call.admitted.isEmpty then ([], lru)
  else
    let entry := lru.getOrInitEntry call.hash call.now
    let s := pickPeers call.cls.redundancyCap call.arrivedFrom call.admitted
      { bits := entry.forwardedTo, index := lru.peerIndex }
    (s.picks, { cache := update lru.cache call.hash (some { entry with forwardedTo := s.bits }), peerIndex := s.index })

def ForwardingLru.forwarded (lru : ForwardingLru) (calls : List ForwardCall) : ForwardingLru :=
  calls.foldl (fun lru call => (forwardInner lru call).2) lru

/-- The calls of a run, each with the peers that it enqueued to. -/
def forwardAll (lru : ForwardingLru) : List ForwardCall → List (ForwardCall × List Key)
  | [] => []
  | call :: calls => (call, (forwardInner lru call).1) :: forwardAll (forwardInner lru call).2 calls

def enqueued (hash : Hash) (sent : List (ForwardCall × List Key)) : List Key :=
  (sent.filter (·.1.hash = hash)).flatMap (·.2)

/-- No number is assigned twice. -/
structure PeerIndex.Numbered (index : PeerIndex) : Prop where
  below : ∀ peer i, index.byPubkey peer = some i → i < index.next
  inj : ∀ peer other i, index.byPubkey peer = some i → index.byPubkey other = some i → peer = other

/-- Numbers stay, and the new ones are from `next` on. -/
structure PeerIndex.Grows (index after : PeerIndex) : Prop where
  next : index.next ≤ after.next
  kept : ∀ peer i, index.byPubkey peer = some i → after.byPubkey peer = some i
  fresh : ∀ peer i, after.byPubkey peer = some i → index.byPubkey peer = some i ∨ index.next ≤ i

section Index

variable {index after : PeerIndex} {peer : Key}

theorem PeerIndex.Grows.refl (index : PeerIndex) : index.Grows index :=
  ⟨le_rfl, fun _ _ same => same, fun _ _ same => .inl same⟩

theorem PeerIndex.Grows.trans {last : PeerIndex} (grows : index.Grows after) (more : after.Grows last) :
    index.Grows last where
  next := grows.next.trans more.next
  kept peer i same := more.kept peer i (grows.kept peer i same)
  fresh peer i same := by
    rcases more.fresh peer i same with old | new
    · exact grows.fresh peer i old
    · exact .inr (grows.next.trans new)

theorem PeerIndex.indexFor_spec (numbered : index.Numbered) :
    (index.indexFor peer).2.Numbered ∧ index.Grows (index.indexFor peer).2 ∧
      (index.indexFor peer).2.byPubkey peer = some (index.indexFor peer).1 := by
  unfold PeerIndex.indexFor
  cases known : index.byPubkey peer with
  | some i => exact ⟨numbered, .refl index, known⟩
  | none =>
    have below := numbered.below
    have inj := numbered.inj
    refine ⟨⟨?_, ?_⟩, ⟨Nat.le_succ _, ?_, ?_⟩, update_self ..⟩ <;> simp only [update_apply] <;> grind

end Index

structure BitSet.Marks (bits : BitSet) (index : PeerIndex) (picked : List Key) : Prop where
  nodup : picked.Nodup
  count : bits.popcount = picked.length
  known : ∀ peer ∈ picked, ∃ i, index.byPubkey peer = some i
  marked : ∀ peer i, index.byPubkey peer = some i → (bits.contains i = true ↔ peer ∈ picked)
  below : ∀ i, bits.contains i = true → i < index.next

section Pick

variable {bits : BitSet} {index after : PeerIndex} {picked earlier candidates : List Key} {s : Picking} {cap : Nat}
  {arrivedFrom : Option Key} {peer : Key} {i : Nat}

theorem BitSet.Marks.empty : BitSet.Marks {} index [] where
  nodup := .nil
  count := rfl
  known := by simp
  marked := by simp [BitSet.contains_empty]
  below := by simp [BitSet.contains_empty]

theorem BitSet.Marks.grow (marks : BitSet.Marks bits index picked) (numbered : index.Numbered)
    (grows : index.Grows after) : BitSet.Marks bits after picked where
  nodup := marks.nodup
  count := marks.count
  known peer mem := by
    obtain ⟨i, isIndex⟩ := marks.known peer mem
    exact ⟨i, grows.kept peer i isIndex⟩
  marked peer i isIndex := by
    rcases grows.fresh peer i isIndex with old | new
    · exact marks.marked peer i old
    · constructor
      · intro set
        exact absurd (marks.below i set) (Nat.not_lt.mpr new)
      · intro mem
        obtain ⟨other, isOther⟩ := marks.known peer mem
        have same : other = i := some.inj ((grows.kept peer other isOther).symm.trans isIndex)
        exact absurd (same ▸ numbered.below peer other isOther) (Nat.not_lt.mpr new)
  below i set := (marks.below i set).trans_le grows.next

theorem BitSet.Marks.pick (marks : BitSet.Marks bits index picked) (numbered : index.Numbered)
    (isIndex : index.byPubkey peer = some i) (clear : bits.contains i = false) :
    BitSet.Marks (bits.set i) index (picked ++ [peer]) where
  nodup := by
    refine nodup_append.mpr ⟨marks.nodup, nodup_singleton _, ?_⟩
    rintro _ mem _ isPeer rfl
    rw [mem_singleton.mp isPeer, ← marks.marked peer i isIndex, clear] at mem
    cases mem
  count := by rw [BitSet.popcount_set clear, marks.count, length_append, length_singleton]
  known other mem := by
    rcases mem_concat.mp mem with old | new
    · exact marks.known other old
    · exact ⟨i, new ▸ isIndex⟩
  marked other j isOther := by
    rw [BitSet.contains_set, Bool.or_eq_true, decide_eq_true_eq, marks.marked other j isOther, mem_append,
      mem_singleton, or_comm]
    refine or_congr_right ⟨?_, ?_⟩
    · rintro rfl
      exact numbered.inj other peer j isOther isIndex
    · rintro rfl
      exact some.inj (isOther.symm.trans isIndex)
  below j set := by
    rw [BitSet.contains_set, Bool.or_eq_true, decide_eq_true_eq] at set
    rcases set with rfl | old
    · exact numbered.below peer j isIndex
    · exact marks.below j old

theorem pickPeers_grows (numbered : s.index.Numbered) : (pickPeers cap arrivedFrom candidates s).index.Numbered ∧
      s.index.Grows (pickPeers cap arrivedFrom candidates s).index := by
  induction candidates generalizing s with
  | nil => exact ⟨numbered, .refl _⟩
  | cons first rest ih =>
    obtain ⟨assigned, grows, -⟩ := @PeerIndex.indexFor_spec s.index first numbered
    have later : ∀ bits picks, _ := fun bits picks => @ih ⟨bits, (s.index.indexFor first).2, picks⟩ assigned
    rw [pickPeers]
    split
    · exact ih numbered
    · dsimp only
      split
      · exact ⟨(later _ _).1, grows.trans (later _ _).2⟩
      · split
        · exact ⟨assigned, grows⟩
        · exact ⟨(later _ _).1, grows.trans (later _ _).2⟩

structure PickedFrom (cap : Nat) (arrivedFrom : Option Key) (candidates earlier : List Key) (s after : Picking) : Prop where
  marks : BitSet.Marks after.bits after.index (earlier ++ after.picks)
  eligible : ∀ peer ∈ after.picks, peer ∈ s.picks ∨ peer ∈ candidates ∧ some peer ≠ arrivedFrom
  most : (earlier ++ s.picks).length ≤ cap → (earlier ++ after.picks).length ≤ cap
  kept : ∀ peer ∈ s.picks, peer ∈ after.picks
  complete : (earlier ++ after.picks).length < cap →
    ∀ peer ∈ candidates, some peer ≠ arrivedFrom → peer ∈ earlier ++ after.picks

theorem PickedFrom.skip {first : Key} {rest : List Key} {after : Picking}
    (picked : PickedFrom cap arrivedFrom rest earlier s after)
    (skipped : some first ≠ arrivedFrom → first ∈ earlier ++ s.picks) :
    PickedFrom cap arrivedFrom (first :: rest) earlier s after := by
  obtain ⟨marks, eligible, most, kept, complete⟩ := picked
  refine ⟨marks, fun peer mem => (eligible peer mem).imp_right ?_, most, kept, ?_⟩
  · exact And.imp_left (mem_cons_of_mem _)
  · intro less peer mem other
    rcases mem_cons.mp mem with rfl | mem
    · rcases mem_append.mp (skipped other) with before | now
      · exact mem_append_left _ before
      · exact mem_append_right _ (kept peer now)
    · exact complete less peer mem other

theorem pickPeers_spec (numbered : s.index.Numbered) (marks : BitSet.Marks s.bits s.index (earlier ++ s.picks)) :
    PickedFrom cap arrivedFrom candidates earlier s (pickPeers cap arrivedFrom candidates s) := by
  induction candidates generalizing s with
  | nil => exact ⟨marks, fun _ => .inl, id, fun _ => id, by simp⟩
  | cons first rest ih =>
    rw [pickPeers]
    split
    · rename_i isSource
      exact (ih numbered marks).skip fun other => absurd isSource other
    · rename_i notSource
      obtain ⟨numbered', grows, isIndex⟩ := @PeerIndex.indexFor_spec s.index first numbered
      have marks' := marks.grow numbered grows
      dsimp only
      split
      · rename_i already
        obtain ⟨kept, eligible, most, still, complete⟩ := (@ih { s with index := (s.index.indexFor first).2 } numbered' marks').skip
          fun _ => (marks'.marked first _ isIndex).mp already
        exact ⟨kept, eligible, most, still, complete⟩
      · rename_i clear
        split
        · rename_i full
          refine ⟨marks', fun _ => .inl, id, fun _ => id, ?_⟩
          intro less
          rw [← marks.count] at less
          exact absurd less (Nat.not_lt.mpr full)
        · rename_i room
          have picked := marks'.pick numbered' isIndex (by simpa using clear)
          rw [append_assoc] at picked
          obtain ⟨marks'', eligible, most, kept, complete⟩ := (@ih ⟨_, _, s.picks ++ [first]⟩ numbered' picked).skip
            fun _ => mem_append_right _ (mem_append_right _ (mem_singleton_self _))
          refine ⟨marks'', ?_, ?_, fun peer mem => kept peer (mem_append_left _ mem), complete⟩
          · intro peer mem
            rcases eligible peer mem with old | candidate
            · rcases mem_concat.mp old with old | new
              · exact .inl old
              · rw [new]
                exact .inr ⟨mem_cons_self, notSource⟩
            · exact .inr candidate
          · rintro -
            refine most ?_
            rw [marks.count] at room
            simp only [length_append, length_singleton] at room ⊢
            omega

end Pick

def ForwardingLru.bitsFrom (lru : ForwardingLru) (hash : Hash) (start : Nat) : BitSet :=
  match lru.cache hash with
  | some entry => if start ≤ entry.createdAt then entry.forwardedTo else {}
  | none => {}

/-- The entry of the hash is expired or from `start` on, and marks the peers picked since. -/
structure ForwardingLru.Kept (lru : ForwardingLru) (hash : Hash) (start : Nat) (picked : List Key) : Prop where
  numbered : lru.peerIndex.Numbered
  expired : ∀ entry, lru.cache hash = some entry → entry.createdAt + tPropagateMax ≤ start ∨ start ≤ entry.createdAt
  marks : BitSet.Marks (lru.bitsFrom hash start) lru.peerIndex picked

section Run

variable {lru : ForwardingLru} {hash : Hash} {start now : Nat} {picked : List Key} {call : ForwardCall}

theorem ForwardingLru.Kept.getOrInitEntry (kept : lru.Kept hash start picked) (from_ : start ≤ now)
    (until_ : now < start + tPropagateMax) :
    (lru.getOrInitEntry hash now).forwardedTo = lru.bitsFrom hash start ∧
      start ≤ (lru.getOrInitEntry hash now).createdAt := by
  have expired := kept.expired
  unfold ForwardingLru.getOrInitEntry ForwardingLru.bitsFrom
  cases found : lru.cache hash with
  | none => exact ⟨rfl, from_⟩
  | some entry =>
    rcases expired entry found with stale | live
    · have : 0 < tPropagateMax := by decide
      simp only [if_neg (show ¬ now - entry.createdAt < tPropagateMax by omega),
        if_neg (show ¬ start ≤ entry.createdAt by omega), true_and]
      exact from_
    · simp only [if_pos (show now - entry.createdAt < tPropagateMax by omega), if_pos live, true_and]
      exact live

theorem forwardInner_grows (numbered : lru.peerIndex.Numbered) :
    (forwardInner lru call).2.peerIndex.Numbered ∧ lru.peerIndex.Grows (forwardInner lru call).2.peerIndex := by
  rw [forwardInner]
  split
  · exact ⟨numbered, .refl _⟩
  · exact pickPeers_grows numbered

theorem ForwardingLru.Kept.other (kept : lru.Kept hash start picked) (apart : call.hash ≠ hash) :
    (forwardInner lru call).2.Kept hash start picked := by
  obtain ⟨numbered, grows⟩ := @forwardInner_grows lru call kept.numbered
  have cache : (forwardInner lru call).2.cache hash = lru.cache hash := by
    rw [forwardInner]
    split
    · rfl
    · exact update_of_ne apart.symm ..
  have bits : (forwardInner lru call).2.bitsFrom hash start = lru.bitsFrom hash start := by
    simp only [ForwardingLru.bitsFrom, cache]
  exact ⟨numbered, cache ▸ kept.expired, bits ▸ kept.marks.grow kept.numbered grows⟩

/-- What a call for the hash does, with the peers picked before it. -/
structure ForwardCall.Forwards (call : ForwardCall) (picked picks : List Key) : Prop where
  eligible : ∀ peer ∈ picks, peer ∈ call.admitted ∧ some peer ≠ call.arrivedFrom
  most : picked.length ≤ call.cls.redundancyCap → (picked ++ picks).length ≤ call.cls.redundancyCap
  complete : (picked ++ picks).length < call.cls.redundancyCap →
    ∀ peer ∈ call.admitted, some peer ≠ call.arrivedFrom → peer ∈ picked ++ picks

theorem ForwardingLru.Kept.forward (kept : lru.Kept call.hash start picked) (from_ : start ≤ call.now)
    (until_ : call.now < start + tPropagateMax) :
    (forwardInner lru call).2.Kept call.hash start (picked ++ (forwardInner lru call).1) ∧
      call.Forwards picked (forwardInner lru call).1 := by
  obtain ⟨numbered, -⟩ := @forwardInner_grows lru call kept.numbered
  revert numbered
  rw [forwardInner]
  split
  · rename_i nobody
    intro _
    rw [append_nil]
    refine ⟨kept, by simp, by simp, ?_⟩
    rw [List.isEmpty_iff.mp nobody]
    simp
  · intro numbered
    obtain ⟨isBits, fresh⟩ := kept.getOrInitEntry from_ until_
    have marks : BitSet.Marks (lru.getOrInitEntry call.hash call.now).forwardedTo lru.peerIndex (picked ++ []) := by
      rw [isBits, append_nil]
      exact kept.marks
    obtain ⟨marks, eligible, most, -, complete⟩ := @pickPeers_spec picked call.admitted
      ⟨(lru.getOrInitEntry call.hash call.now).forwardedTo, lru.peerIndex, []⟩ call.cls.redundancyCap call.arrivedFrom
      kept.numbered marks
    refine ⟨⟨numbered, ?_, ?_⟩, ?_, ?_, complete⟩
    · intro entry isEntry
      cases (update_self ..).symm.trans isEntry
      exact .inr fresh
    · simpa only [ForwardingLru.bitsFrom, update_self, if_pos fresh] using marks
    · intro peer mem
      exact (eligible peer mem).resolve_left not_mem_nil
    · simpa using most

variable {cls : ForwardingClass} {calls : List ForwardCall}

theorem enqueued_cons (hash : Hash) (first : ForwardCall × List Key) (rest : List (ForwardCall × List Key)) :
    enqueued hash (first :: rest) = (if first.1.hash = hash then first.2 else []) ++ enqueued hash rest := by
  by_cases same : first.1.hash = hash <;> simp [enqueued, same]

theorem forwardAll_spec (kept : lru.Kept hash start picked) (few : picked.length ≤ cls.redundancyCap)
    (timely : ∀ call ∈ calls, call.hash = hash → call.cls = cls ∧ start ≤ call.now ∧ call.now < start + tPropagateMax) :
    (picked ++ enqueued hash (forwardAll lru calls)).Nodup ∧
    (picked ++ enqueued hash (forwardAll lru calls)).length ≤ cls.redundancyCap ∧
    ∀ earlier entry later, forwardAll lru calls = earlier ++ entry :: later → entry.1.hash = hash →
      entry.1.cls = cls ∧ entry.1.Forwards (picked ++ enqueued hash earlier) entry.2 := by
  induction calls generalizing lru picked with
  | nil =>
    refine ⟨?_, ?_, ?_⟩
    · simpa [forwardAll, enqueued] using kept.marks.nodup
    · simpa [forwardAll, enqueued] using few
    · intro earlier entry later split
      simp [forwardAll] at split
  | cons call calls ih =>
    have timely' := fun other mem => timely other (mem_cons_of_mem _ mem)
    rw [forwardAll, enqueued_cons]
    by_cases same : call.hash = hash
    · subst same
      obtain ⟨isClass, from_, until_⟩ := timely call mem_cons_self rfl
      obtain ⟨kept', forwards⟩ := kept.forward from_ until_
      obtain ⟨nodup, length, each⟩ := ih kept' (isClass ▸ forwards.most (isClass ▸ few)) timely'
      rw [if_pos rfl, ← append_assoc]
      refine ⟨nodup, length, ?_⟩
      rintro (_ | ⟨first, earlier⟩) entry later split isHash
      · obtain ⟨rfl, -⟩ := List.cons.inj split
        rw [enqueued, filter_nil, flatMap_nil, append_nil]
        exact ⟨isClass, forwards⟩
      · obtain ⟨rfl, rest⟩ := List.cons.inj split
        rw [enqueued_cons, if_pos rfl, ← append_assoc]
        exact each earlier entry later rest isHash
    · obtain ⟨nodup, length, each⟩ := ih (kept.other same) few timely'
      rw [if_neg same, nil_append]
      refine ⟨nodup, length, ?_⟩
      rintro (_ | ⟨first, earlier⟩) entry later split isHash
      · obtain ⟨rfl, -⟩ := List.cons.inj split
        exact absurd isHash same
      · obtain ⟨rfl, rest⟩ := List.cons.inj split
        rw [enqueued_cons, if_neg same, nil_append]
        exact each earlier entry later rest isHash

theorem afterCalls_numbered (numbered : lru.peerIndex.Numbered) (calls : List ForwardCall) :
    (lru.forwarded calls).peerIndex.Numbered := by
  induction calls generalizing lru with
  | nil => exact numbered
  | cons call calls ih => exact ih (forwardInner_grows numbered).1

end Run

/--
However peers join and leave: a hash whose last entry has expired is enqueued to distinct peers, no more than the cap
of its class, none of them the one that it arrived from, and a call stops early only if no candidate is left.
-/
theorem fanout_bounded (before calls : List ForwardCall) (hash : Hash) (cls : ForwardingClass) (start : Nat)
    (expired : ∀ entry, (ForwardingLru.forwarded {} before).cache hash = some entry →
      entry.createdAt + tPropagateMax ≤ start)
    (timely : ∀ call ∈ calls, call.hash = hash →
      call.cls = cls ∧ start ≤ call.now ∧ call.now < start + tPropagateMax) :
    let sent := forwardAll (ForwardingLru.forwarded {} before) calls
    (enqueued hash sent).Nodup ∧ (enqueued hash sent).length ≤ cls.redundancyCap ∧
    ∀ earlier call picks later, sent = earlier ++ (call, picks) :: later → call.hash = hash →
      (∀ peer ∈ picks, peer ∈ call.admitted ∧ some peer ≠ call.arrivedFrom) ∧
      (picks.length < cls.redundancyCap - (enqueued hash earlier).length →
        ∀ peer ∈ call.admitted, some peer ≠ call.arrivedFrom → peer ∈ enqueued hash earlier ++ picks) := by
  intro sent
  have kept : (ForwardingLru.forwarded {} before).Kept hash start [] := by
    refine ⟨afterCalls_numbered ⟨by simp, by simp⟩ before, fun entry found => .inl (expired entry found), ?_⟩
    have blank : (ForwardingLru.forwarded {} before).bitsFrom hash start = {} := by
      unfold ForwardingLru.bitsFrom
      cases found : (ForwardingLru.forwarded {} before).cache hash with
      | none => rfl
      | some entry =>
        have : 0 < tPropagateMax := by decide
        have := expired entry found
        exact if_neg (by omega)
    rw [blank]
    exact .empty
  obtain ⟨nodup, length, each⟩ := forwardAll_spec kept (Nat.zero_le _) timely
  refine ⟨nodup, length, ?_⟩
  intro earlier call picks later split isHash
  obtain ⟨isClass, eligible, -, complete⟩ := each earlier (call, picks) later split isHash
  refine ⟨eligible, fun less => complete ?_⟩
  dsimp only
  rw [isClass, nil_append, length_append]
  omega

theorem fanout_of_two :
    let calls := [⟨1, .trustEdge, [5, 6, 7], none, none, 10⟩, ⟨2, .move, [8, 7], some 7, none, 15⟩,
      ⟨1, .trustEdge, [8, 5], some 7, some (· ≠ 8), 20⟩]
    enqueued 1 (forwardAll (ForwardingLru.forwarded {} []) calls) = [5, 6] ∧
      (enqueued 1 (forwardAll (ForwardingLru.forwarded {} []) calls)).length ≤ 2 := by
  intro calls
  exact ⟨by decide +kernel, (fanout_bounded [] calls 1 .trustEdge 10 nofun (by decide)).2.1⟩

end Prismoire
