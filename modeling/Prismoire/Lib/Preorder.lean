import Mathlib.Algebra.GroupWithZero.Nat
import Mathlib.Data.List.Nodup
import Mathlib.Algebra.BigOperators.Group.List.Basic

namespace Prismoire.Lib

open List

variable {α : Type} (kids : α → List α)

/-- A node before everything below it, for as many layers as there are steps. -/
def preorder : Nat → α → List α
  | 0, _ => []
  | fuel + 1, node => node :: (kids node).flatMap (preorder fuel)

/-- A node so many layers below another. -/
inductive Descends (top : α) : Nat → α → Prop
  | here : Descends top 0 top
  | child {depth node kid} : Descends top depth node → kid ∈ kids node → Descends top (depth + 1) kid

/-- Nothing hangs twice, or under two nodes, and the root under none. -/
structure Rooted (root : α) : Prop where
  apart : ∀ node, (kids node).Nodup
  single : ∀ {a b kid}, kid ∈ kids a → kid ∈ kids b → a = b
  top : ∀ node, root ∉ kids node

variable {kids} {root top node : α} {depth fuel : Nat}

theorem Descends.under {kid : α} (hangs : kid ∈ kids top) (descends : Descends kids kid depth node) :
    Descends kids top (depth + 1) node := by
  induction descends with
  | here => exact .child .here hangs
  | child _ mem ih => exact .child ih mem

theorem Descends.first (descends : Descends kids top (depth + 1) node) :
    ∃ kid ∈ kids top, Descends kids kid depth node := by
  induction depth generalizing node with
  | zero =>
    cases descends with
    | child above mem =>
      cases above
      exact ⟨node, mem, .here⟩
  | succ depth ih =>
    cases descends with
    | child above mem =>
      obtain ⟨kid, hangs, below⟩ := ih above
      exact ⟨kid, hangs, .child below mem⟩

theorem descends_iff : (∃ depth, Descends kids top depth node) ↔
    node = top ∨ ∃ kid ∈ kids top, ∃ depth, Descends kids kid depth node := by
  constructor
  · rintro ⟨depth, descends⟩
    cases depth with
    | zero =>
      cases descends
      exact .inl rfl
    | succ depth =>
      obtain ⟨kid, hangs, below⟩ := descends.first
      exact .inr ⟨kid, hangs, depth, below⟩
  · rintro (rfl | ⟨kid, hangs, depth, below⟩)
    · exact ⟨0, .here⟩
    · exact ⟨depth + 1, below.under hangs⟩

theorem Descends.trans {other : Nat} {middle : α} (above : Descends kids top depth middle)
    (descends : Descends kids middle other node) : Descends kids top (depth + other) node := by
  induction descends with
  | here => exact above
  | child _ mem ih => exact .child ih mem

theorem mem_preorder : node ∈ preorder kids fuel top ↔ ∃ depth < fuel, Descends kids top depth node := by
  induction fuel generalizing top with
  | zero => simp [preorder]
  | succ fuel ih =>
    rw [preorder, mem_cons, mem_flatMap]
    constructor
    · rintro (rfl | ⟨kid, hangs, below⟩)
      · exact ⟨0, by omega, .here⟩
      · obtain ⟨depth, within, descends⟩ := ih.mp below
        exact ⟨depth + 1, by omega, descends.under hangs⟩
    · rintro ⟨depth, within, descends⟩
      cases depth with
      | zero =>
        cases descends
        exact .inl rfl
      | succ depth =>
        obtain ⟨kid, hangs, below⟩ := descends.first
        exact .inr ⟨kid, hangs, ih.mpr ⟨depth, by omega, below⟩⟩

theorem Rooted.depth_unique {other : Nat} (rooted : Rooted kids root) (descends : Descends kids root depth node)
    (again : Descends kids root other node) : depth = other := by
  induction descends generalizing other with
  | here =>
    cases again with
    | here => rfl
    | child _ mem => exact absurd mem (rooted.top _)
  | child _ mem ih =>
    cases again with
    | here => exact absurd mem (rooted.top _)
    | child above mem' =>
      cases rooted.single mem mem'
      rw [ih above]

/-- Two nodes that are as many layers above a third are one. -/
theorem Rooted.above_unique {a b : α} (rooted : Rooted kids root) (fromA : Descends kids a depth node)
    (fromB : Descends kids b depth node) : a = b := by
  induction depth generalizing node with
  | zero =>
    cases fromA
    cases fromB
    rfl
  | succ depth ih =>
    cases fromA with
    | child aboveA mem =>
      cases fromB with
      | child aboveB mem' =>
        cases rooted.single mem mem'
        exact ih aboveA aboveB

theorem Rooted.nodup_preorder (rooted : Rooted kids root) (descends : Descends kids root depth top) :
    (preorder kids fuel top).Nodup := by
  induction fuel generalizing top depth with
  | zero => exact nodup_nil
  | succ fuel ih =>
    rw [preorder, nodup_cons, nodup_flatMap]
    refine ⟨fun mem => ?_, fun kid hangs => ih (descends.child hangs), ?_⟩
    · obtain ⟨kid, hangs, below⟩ := mem_flatMap.mp mem
      obtain ⟨further, -, around⟩ := mem_preorder.mp below
      have := rooted.depth_unique descends (descends.trans (around.under hangs))
      omega
    · refine (rooted.apart top).pairwise_of_forall_ne fun a inA b inB different => ?_
      intro other belowA belowB
      obtain ⟨further, -, fromA⟩ := mem_preorder.mp belowA
      obtain ⟨further', -, fromB⟩ := mem_preorder.mp belowB
      have level := rooted.depth_unique ((descends.child inA).trans fromA) ((descends.child inB).trans fromB)
      cases (show further = further' by omega)
      exact different (rooted.above_unique fromA fromB)

theorem length_preorder : (preorder kids (fuel + 1) top).length =
    1 + ((kids top).map fun kid => (preorder kids fuel kid).length).sum := by
  rw [preorder, length_cons, length_flatMap, Nat.add_comm]

end Prismoire.Lib
