import NCloud.Lib.Reader
import NCloud.Lib.RoundRobin
import Mathlib.Data.List.Rotate

/-!
# The load balancer

`load_balancer.cc` sends every client to a front end that is alive. Who it is depends on
`rr_idx_`, where the search begins, and on what the thread that tries the front ends has
last found.
-/

namespace NCloud.Frontend.LoadBalancer

open Wire RoundRobin

/-- `FrontendNode`. -/
structure FrontendNode where
  id : Bytes
  host : Bytes
  port : Int
  alive : Bool

/-- `nodes_` and `rr_idx_`. -/
structure Balancer where
  nodes : List FrontendNode
  rrIdx : Nat

namespace Balancer

/-- The indices in the order in which the loop of `pick_alive_node` tries them. -/
def candidates (b : Balancer) : List Nat :=
  (List.range b.nodes.length).map (fun step => (b.rrIdx + step) % b.nodes.length)

/-- `nodes_[idx].alive`. -/
def isAlive (b : Balancer) (idx : Nat) : Bool := b.nodes[idx]?.any FrontendNode.alive

/-- `pick_alive_node`. -/
def pickAliveNode (b : Balancer) : Option FrontendNode × Balancer :=
  match b.candidates.find? b.isAlive with
  | some idx => (b.nodes[idx]?, { b with rrIdx := (idx + 1) % b.nodes.length })
  | none => (none, b)

/-- Calls in a row. -/
def pickMany : Nat → Balancer → List (Option FrontendNode)
  | 0, _ => []
  | calls + 1, b => b.pickAliveNode.1 :: pickMany calls b.pickAliveNode.2

/-- One round of `health_loop`, in which `ok` tells who can be connected to. -/
def checkHealth (ok : Nat → Bool) (b : Balancer) : Balancer :=
  { b with nodes := b.nodes.mapIdx (fun i n => { n with alive := ok i }) }

end Balancer

/-- What happens to the balancer, each with `nodes_mu_` held. -/
inductive Step where
  | pick
  | health (ok : Nat → Bool)

/-- The balancer after it. -/
def Step.next (b : Balancer) : Step → Balancer
  | pick => b.pickAliveNode.2
  | health ok => b.checkHealth ok

/-- The balancer after some steps. -/
def run (steps : List Step) (b : Balancer) : Balancer := steps.foldl Step.next b

namespace Balancer

variable {b : Balancer}

/-! ## One call -/

/-- The index is one. -/
def Bounded (b : Balancer) : Prop := b.nodes ≠ [] → b.rrIdx < b.nodes.length

/-- The loop goes around once. -/
theorem candidates_eq (b : Balancer) : b.candidates = (List.range b.nodes.length).rotate b.rrIdx := by
  refine List.ext_getElem (by simp [candidates]) fun k h₁ h₂ => ?_
  rw [List.getElem_rotate]
  simp [candidates, Nat.add_comm]

theorem mem_candidates {idx : Nat} : idx ∈ b.candidates ↔ idx < b.nodes.length := by
  rw [candidates_eq, List.mem_rotate, List.mem_range]

/-- **A call takes the first in the order of the loop**, and the next call tries it last. -/
theorem pickAliveNode_of_split {front rest : List Nat} {idx : Nat} (hsplit : b.candidates = front ++ idx :: rest)
    (hfront : ∀ i ∈ front, b.isAlive i = false) (hidx : b.isAlive idx = true) :
    b.pickAliveNode = (b.nodes[idx]?, { b with rrIdx := (idx + 1) % b.nodes.length }) ∧
      candidates { b with rrIdx := (idx + 1) % b.nodes.length } = rest ++ (front ++ [idx]) := by
  constructor
  · have hfind : b.candidates.find? b.isAlive = some idx := by
      rw [hsplit]
      refine List.find?_eq_some_iff_append.mpr ⟨hidx, front, rest, rfl, fun i hi => ?_⟩
      rw [hfront i hi]
      rfl
    rw [pickAliveNode, hfind]
  · have hlen : front.length < b.candidates.length := by
      rw [hsplit, List.length_append, List.length_cons]
      omega
    have hidx : idx = (b.rrIdx + front.length) % b.nodes.length := by
      have hget : b.candidates[front.length]? = some idx := by
        rw [hsplit, List.getElem?_append_right (Nat.le_refl _), Nat.sub_self]
        rfl
      rw [List.getElem?_eq_getElem hlen, Option.some.injEq] at hget
      rw [← hget]
      simp [candidates]
    calc candidates { b with rrIdx := (idx + 1) % b.nodes.length }
        = (List.range b.nodes.length).rotate ((idx + 1) % b.nodes.length) := candidates_eq _
      _ = (List.range b.nodes.length).rotate (b.rrIdx + (front.length + 1)) := by
          rw [hidx, Nat.mod_add_mod, ← List.rotate_mod _ (b.rrIdx + (front.length + 1)), List.length_range, Nat.add_assoc]
      _ = (front ++ [idx] ++ rest).rotate (front ++ [idx]).length := by
          rw [← List.rotate_rotate, ← candidates_eq, hsplit, List.append_assoc, List.length_append]
          rfl
      _ = rest ++ (front ++ [idx]) := List.rotate_append_length_eq ..

/-- Nobody is tried but in vain. -/
theorem pickAliveNode_of_dead (h : ∀ idx ∈ b.candidates, b.isAlive idx = false) : b.pickAliveNode = (none, b) := by
  have hfind : b.candidates.find? b.isAlive = none :=
    List.find?_eq_none.mpr fun idx hidx => by rw [h idx hidx]; exact nofun
  rw [pickAliveNode, hfind]

theorem alive_of_isAlive {idx : Nat} (h : b.isAlive idx = true) :
    ∃ n, b.nodes[idx]? = some n ∧ n ∈ b.nodes ∧ n.alive = true := by
  rw [isAlive] at h
  cases hget : b.nodes[idx]? with
  | none => rw [hget] at h; exact absurd h nofun
  | some n =>
      rw [hget] at h
      exact ⟨n, rfl, List.mem_of_getElem? hget, h⟩

/-- Every node is tried. -/
theorem isAlive_of_mem {n : FrontendNode} (hn : n ∈ b.nodes) : ∃ idx ∈ b.candidates, b.isAlive idx = n.alive := by
  obtain ⟨idx, hget⟩ := List.getElem?_of_mem hn
  refine ⟨idx, mem_candidates.mpr (List.getElem?_eq_some_iff.mp hget).1, ?_⟩
  rw [isAlive, hget]
  rfl

/-- Either nobody is alive, or the call returns somebody who is. -/
theorem pickAliveNode_cases (b : Balancer) :
    ((∀ n ∈ b.nodes, n.alive = false) ∧ b.pickAliveNode = (none, b)) ∨
      ∃ front idx rest, b.candidates = front ++ idx :: rest ∧ (∀ i ∈ front, b.isAlive i = false) ∧
        b.isAlive idx = true := by
  by_cases h : ∃ idx ∈ b.candidates, b.isAlive idx = true
  · exact .inr (exists_first h)
  · have hdead : ∀ idx ∈ b.candidates, b.isAlive idx = false :=
      fun idx hidx => Bool.eq_false_of_not_eq_true fun htrue => h ⟨idx, hidx, htrue⟩
    refine .inl ⟨fun n hn => ?_, pickAliveNode_of_dead hdead⟩
    obtain ⟨idx, hidx, halive⟩ := isAlive_of_mem hn
    exact halive ▸ hdead idx hidx

/-! ## Calls in a row -/

/-- **Calls take turns.** -/
theorem pickMany_eq (h : ∃ idx ∈ b.candidates, b.isAlive idx = true) (calls : Nat) :
    b.pickMany calls = (serveMany b.isAlive calls b.candidates).map (fun idx => b.nodes[idx]?) := by
  induction calls generalizing b with
  | zero => rfl
  | succ calls ih =>
      obtain ⟨front, idx, rest, hsplit, hfront, hidx⟩ := exists_first h
      obtain ⟨hpick, hnext⟩ := pickAliveNode_of_split hsplit hfront hidx
      have hagain := ih (b := { b with rrIdx := (idx + 1) % b.nodes.length })
        ⟨idx, by rw [hnext]; simp, hidx⟩
      rw [pickMany, hpick, serveMany, hsplit, serve_append hfront hidx]
      dsimp only
      rw [hagain, hnext]
      rfl

theorem countP_isAlive (b : Balancer) : (List.range b.nodes.length).countP b.isAlive = b.nodes.countP (·.alive) := by
  have hall : ∀ l : List FrontendNode,
      (List.range l.length).countP (fun idx => l[idx]?.any FrontendNode.alive) = l.countP (·.alive) := by
    intro l
    induction l with
    | nil => rfl
    | cons n l ih =>
        rw [List.length_cons, List.range_succ_eq_map, List.countP_cons, List.countP_map, List.countP_cons, ← ih]
        rfl
  exact hall b.nodes

/-- As many calls as there are nodes alive take each of them once. -/
theorem perm_pickMany (b : Balancer) :
    ∃ order : List Nat, order.Perm ((List.range b.nodes.length).filter b.isAlive) ∧
      b.pickMany (b.nodes.countP (·.alive)) = order.map (fun idx => b.nodes[idx]?) := by
  have hperm : b.candidates.Perm (List.range b.nodes.length) := candidates_eq b ▸ List.rotate_perm _ _
  refine ⟨b.candidates.filter b.isAlive, hperm.filter _, ?_⟩
  have hcount : b.nodes.countP (·.alive) = b.candidates.countP b.isAlive :=
    (countP_isAlive b).symm.trans (hperm.countP_eq _).symm
  rw [hcount]
  by_cases h : ∃ idx ∈ b.candidates, b.isAlive idx = true
  · rw [pickMany_eq h, serveMany_countP]
  · have hnone : b.candidates.filter b.isAlive = [] :=
      List.filter_eq_nil_iff.mpr fun idx hidx htrue => h ⟨idx, hidx, htrue⟩
    rw [List.countP_eq_length_filter, hnone]
    rfl

/-! ## Runs -/

theorem Bounded.next (h : b.Bounded) (step : Step) : (step.next b).Bounded := by
  cases step with
  | health ok =>
      intro hne
      have hlen : (b.checkHealth ok).nodes.length = b.nodes.length := List.length_mapIdx
      rw [Step.next, hlen]
      refine h fun hnil => hne ?_
      rw [Step.next, checkHealth, hnil]
      rfl
  | pick =>
      rcases pickAliveNode_cases b with ⟨-, hpick⟩ | ⟨front, idx, rest, hsplit, hfront, hidx⟩
      · rw [Step.next, hpick]
        exact h
      · rw [Step.next, (pickAliveNode_of_split hsplit hfront hidx).1]
        exact fun hne => Nat.mod_lt _ (List.length_pos_iff.mpr hne)

theorem bounded_run (nodes : List FrontendNode) (steps : List Step) : (run steps ⟨nodes, 0⟩).Bounded := by
  induction steps using List.reverseRecOn with
  | nil => exact fun hne => List.length_pos_iff.mpr hne
  | append_singleton steps step ih =>
      rw [run, List.foldl_append]
      exact ih.next step

/--
**Turns are fair.**

Whatever calls and health checks came before: the index is one of a node; as many calls as
there are nodes alive return each of them once; and a call fails if and only if there is
nobody alive, and otherwise returns somebody who is.
-/
theorem pickAliveNode_fair (nodes : List FrontendNode) (steps : List Step) :
    (run steps ⟨nodes, 0⟩).Bounded ∧
      (∃ order : List Nat,
        order.Perm ((List.range (run steps ⟨nodes, 0⟩).nodes.length).filter (run steps ⟨nodes, 0⟩).isAlive) ∧
        (run steps ⟨nodes, 0⟩).pickMany ((run steps ⟨nodes, 0⟩).nodes.countP (·.alive)) =
          order.map (fun idx => (run steps ⟨nodes, 0⟩).nodes[idx]?)) ∧
      (∀ n, (run steps ⟨nodes, 0⟩).pickAliveNode.1 = some n → n ∈ (run steps ⟨nodes, 0⟩).nodes ∧ n.alive = true) ∧
      ((run steps ⟨nodes, 0⟩).pickAliveNode.1 = none ↔ ∀ n ∈ (run steps ⟨nodes, 0⟩).nodes, n.alive = false) := by
  refine ⟨bounded_run nodes steps, perm_pickMany _, ?_, ?_⟩
  all_goals
    generalize run steps ⟨nodes, 0⟩ = b
    rcases pickAliveNode_cases b with ⟨hdead, hpick⟩ | ⟨front, idx, rest, hsplit, hfront, hidx⟩
  · intro n hn
    rw [hpick] at hn
    exact absurd hn nofun
  · intro n hn
    obtain ⟨n', hget, hmem, halive⟩ := alive_of_isAlive hidx
    rw [(pickAliveNode_of_split hsplit hfront hidx).1, hget] at hn
    rw [← Option.some.inj hn]
    exact ⟨hmem, halive⟩
  · rw [hpick]
    exact ⟨fun _ => hdead, fun _ => rfl⟩
  · obtain ⟨n, hget, hmem, halive⟩ := alive_of_isAlive hidx
    rw [(pickAliveNode_of_split hsplit hfront hidx).1, hget]
    refine ⟨fun h => absurd h nofun, fun hdead => ?_⟩
    rw [hdead n hmem] at halive
    exact absurd halive nofun

end Balancer

end NCloud.Frontend.LoadBalancer
