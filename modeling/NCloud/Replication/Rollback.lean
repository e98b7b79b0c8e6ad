import NCloud.Replication.Following

/-!
# Rolling back after a failed quorum

A client write that does not find its quorum logs a second operation, which undoes the
first, and forwards that one too.

To find what to go back to the write asks `get`, and to take back a new value it asks
`del`; both go through the filter. For a row that the filter hides there is nothing to
go back to and nothing to delete: no second operation is logged, and the replicas are
sent a DELETE with LSN 0.
-/

namespace NCloud.Rollback

open Process Wire

variable (sort : List CoordProg.Candidate → List CoordProg.Candidate) (n : NodeId)

/-- The write at `n` that started in `w` has left no trace. -/
structure RolledBack (w : World) (σ : World × Acks) : Prop where
  same : ∀ row col, (σ.1.node n).tablet.get row col = (w.node n).tablet.get row col
  lsn : (σ.1.node n).tablet.lsn = (w.node n).tablet.lsn + 2
  /-- The compensating message is the one with the second LSN. -/
  acked : ∀ r op, (r, (w.node n).tablet.lsn + 2, op) ∈ σ.2 →
    ∀ row col, (σ.1.node r).tablet.get row col = (σ.1.node n).tablet.get row col

/-- Whichever write at `n` starts in `w`, and whatever becomes of its requests: if it
ends without its quorum it is rolled back. -/
def RollsBack (w : World) : Prop :=
  ∀ (i : Nat) (cw : ClientWrite) (net : Net clusterSig) (depth : Nat) (σ : World × Acks),
    runs (watched sort n) i net depth (.node n) (cw.prog n) (w, []) (some .quorumUnavailable) σ →
    RolledBack n w σ

variable {n} {w : World} {log : Log} {σ σ' : World × Acks} {i : Nat} {net : Net clusterSig} {depth : Nat}
  {α : Type} {Q : α → World × Acks → Prop} {r : NodeId} {k : Nat} {op : Op}

/-! ## Forwarding -/

theorem wp_forwardToReplica (hr : r ∈ (w.node n).replicas) (hop : opAt log k = some op)
    (h : Follows n w log σ) :
    Wp (watched sort n) i net (fun _ => True) depth (.node n) (Manager.forwardToReplica r k op)
      (fun _ σ' => Follows n w log σ') σ := by
  refine Wp.ask (R := fun _ => True) trivial h (fun d => wp_onReplicate sort hr hop h) ?_
  intro o σ₁ h₁ _
  cases o with
  | sendFailed =>
      exact Wp.ask (R := fun _ => True) trivial h₁ (fun d => wp_onReplicate sort hr hop h₁)
        (fun _ _ h₂ _ => h₂)
  | _ => exact h₁

theorem wp_resyncReplicaFromSelf (hne : r ≠ n) (hr : r ∈ (w.node n).replicas) (h : Follows n w log σ) :
    Wp (watched sort n) i net (fun _ => True) depth (.node n) (Manager.resyncReplicaFromSelf n r)
      (fun _ σ' => Follows n w log σ') σ := by
  refine Wp.ask (R := fun _ => True) trivial h (fun d => ?_) (fun _ _ h₂ _ => h₂)
  refine Wp.bind ((wp_becomeSecondaryAndSync sort hne hr h).mono (fun ok σ₁ h₁ => ?_))
  split
  · exact ⟨h₁, trivial⟩
  · exact ⟨h₁, trivial⟩

theorem wp_forwardRepairing (hne : r ≠ n) (hr : r ∈ (w.node n).replicas) (hop : opAt log k = some op)
    (h : Follows n w log σ) :
    Wp (watched sort n) i net (fun _ => True) depth (.node n) (Manager.forwardRepairing n r k op)
      (fun _ σ' => Follows n w log σ') σ := by
  refine Wp.bind ((wp_forwardToReplica sort hr hop h).mono (fun ok σ₁ h₁ => ?_))
  split
  · exact h₁
  · refine Wp.bind ((wp_resyncReplicaFromSelf sort hne hr h₁).mono (fun ok₁ σ₂ h₂ => ?_))
    split
    · exact wp_forwardToReplica sort hr hop h₂
    · exact h₂

/-- The loop, over pointers that have not been freed. -/
theorem wp_forwardEach (hothers : n ∉ (w.node n).replicas) (hop : opAt log k = some op)
    (todo : List ReplicaPtr)
    (htodo : ∀ p ∈ todo, p.id ∈ (w.node n).replicas ∧ p.made = (w.node n).cleared) (acked : Nat)
    (h : Follows n w log σ) :
    Wp (watched sort n) i net (fun _ => True) depth (.node n) (Manager.forwardEach n k op todo acked)
      (fun _ σ' => Follows n w log σ') σ := by
  induction todo generalizing acked σ with
  | nil => exact h
  | cons p todo ih =>
      obtain ⟨hp, hmade⟩ := htodo p List.mem_cons_self
      have hread : ∀ room, (σ.1.node n).readReplica room p = p.id := by
        intro room
        unfold Node.readReplica
        rw [hmade, h.cleared, if_pos rfl]
      refine wp_look sort rfl (fun room => congrArg (fun r => some (r, σ.1.node n)) (hread room)) ?_
      have hne : p.id ≠ n := fun heq => hothers (heq ▸ hp)
      refine Wp.bind ((wp_forwardRepairing sort hne hp hop h).mono (fun ok σ₁ h₁ => ?_))
      exact wp_look sort rfl (fun _ => rfl) (ih (fun q hq => htodo q (List.mem_cons_of_mem _ hq)) _ h₁)

/-- `forward_to_all` moves every replica along the log. -/
theorem wp_forwardToAll (hothers : n ∉ (w.node n).replicas) (hop : opAt log k = some op)
    (h : Follows n w log σ) :
    Wp (watched sort n) i net (fun _ => True) depth (.node n) (Manager.forwardToAll n k op)
      (fun _ σ' => Follows n w log σ') σ := by
  refine wp_look sort rfl (fun _ => rfl) ?_
  split
  · exact h
  · refine Wp.bind ((wp_forwardEach sort hothers hop _ (fun p hp => ?_) 0 h).mono (fun _ _ h₁ => h₁))
    obtain ⟨q, hq, rfl⟩ := List.mem_map.mp hp
    exact ⟨h.replicas hq, h.cleared⟩

/-! ## Client writes -/

/-- The primary has logged `op` and then what undoes it. -/
def Undone (n : NodeId) (w : World) (log : Log) (op : Op) (σ : World × Acks) : Prop :=
  ∃ undo : Op, undo.cell = op.cell ∧ undo.value = valueAt log op.cell ∧
    Follows n w (log ++ [some op] ++ [some undo]) σ

/-- Where the primary has this log its map has room for the operation. -/
def Room (n : NodeId) (w : World) (log : Log) (op : Op) : Prop :=
  ∀ σ : World × Acks, Follows n w log σ → ((σ.1.node n).tablet.rows.apply op).Fits

theorem room_of_clear (hc : Clear n w) (op : Op) : Room n w (w.log n) op := by
  intro σ h
  rw [Follows.rows [] (by rw [List.map_nil, List.append_nil]; exact h)]
  exact hc.room op

/-- What undoes an operation needs no more room than a put on its cell. -/
theorem room_undo (hc : Clear n w) {undo : Op} (hcell : undo.cell = op.cell) :
    Room n w (w.log n ++ [some op]) undo := by
  intro σ h
  rw [Follows.rows [op] h]
  exact (hc.room (.put op.cell.1 op.cell.2 op.cell.1)).mono (Rows.apply_apply_inside _ op undo hcell op.cell.1)

variable {row col val : Field}

theorem valueAt_undone {undo : Op} (hcell : undo.cell = op.cell)
    (hvalue : undo.value = valueAt log op.cell) (c : Field × Field) :
    valueAt (log ++ [some op] ++ [some undo]) c = valueAt log c := by
  rw [valueAt_append, valueAt_append, hcell]
  split
  · rename_i hc
    rw [hvalue, hc]
  · rfl

/-- **A write that is undone is rolled back.** -/
theorem Undone.rolledBack (hstart : Follows n w (w.log n) (w, [])) (h : Undone n w (w.log n) op σ) :
    RolledBack n w σ := by
  obtain ⟨undo, hcell, hvalue, hf⟩ := h
  have hlen : (w.node n).tablet.lsn + 2 = (w.log n ++ [some op] ++ [some undo]).length := by
    rw [List.length_append, List.length_append]
    rfl
  refine ⟨fun row col => ?_, ?_, fun r op' ha row col => ?_⟩
  · rw [hf.get, valueAt_undone hcell hvalue]
    exact (hstart.get row col).symm
  · rw [hlen]
    exact hf.lsn
  · rw [hlen] at ha
    obtain ⟨hr, -⟩ := hf.acks r _ op' ha
    rw [hf.get]
    refine (hf.tracks r (.inl hr)).get_eq (hf.log_eq ha) row col (fun hblank => ?_)
    rw [valueAt_undone hcell hvalue]
    exact hblank.2 col

/-- `put`, with room on the disk. -/
theorem wp_put (hroom : Room n w log (.put row col val)) (h : Follows n w log σ) :
    Wp (watched sort n) i net (fun _ => True) depth (.node n) (Manager.put row col val)
      (fun lsn σ' => lsn = some (log.length + 1) ∧ Follows n w (log ++ [some (.put row col val)]) σ') σ := by
  refine wp_touch sort h trivial (fun _ σ₁ h₁ _ => ?_)
  refine Wp.perform trivial (fun io (lsn : Option Nat) σ₂ he => ?_)
  obtain ⟨io', node, hio, hn, rfl⟩ := exec_node sort he
  have hlog : (σ₁.1.node n).tablet.logOp io' (.put row col val)
      = (some ((σ₁.1.node n).tablet.lsn + 1), (σ₁.1.node n).tablet.record (.put row col val)) :=
    if_neg (hio rfl)
  obtain ⟨hlsn, rfl⟩ := Prod.mk.inj (Option.some.inj hn)
  rw [hlog] at hlsn ⊢
  obtain rfl : some ((σ₁.1.node n).tablet.lsn + 1) = lsn := hlsn
  refine wp_applyRow sort (wp_unlockWal sort (h₁.append (.put row col val) (hroom σ₁ h₁)) (fun σ₃ h₃ _ => ⟨?_, h₃⟩))
  rw [h₁.lsn]

/-- An action of the primary that logs the next operation and applies it. -/
theorem wp_append {a : NodeAct} {f : a.Res → ClusterProg α} (hroom : Room n w log op) (h : Follows n w log σ)
    (hnote : noteAck n σ.2 a = σ.2) {v : a.Res}
    (hexec : ∀ room q, room ≠ 0 → (σ.1.node n).exec i room a = some q →
      q = (v, (σ.1.node n).withTablet (((σ.1.node n).tablet.record op).apply op)))
    (hf : ∀ σ', Follows n w (log ++ [some op]) σ' →
      Wp (watched sort n) i net (fun _ => True) depth (.node n) (f v) Q σ') :
    Wp (watched sort n) i net (fun _ => True) depth (.node n) (Manager.act a >>= f) Q σ := by
  refine Wp.perform trivial (fun io r' σ₁ he => ?_)
  obtain ⟨io', node, hio, hn, rfl⟩ := exec_node sort he
  obtain ⟨rfl, rfl⟩ := Prod.mk.inj (hexec io' _ (hio rfl) hn)
  rw [hnote]
  exact hf _ (h.append op (hroom σ h))

theorem exec_cput_room {node : Node} {room : Nat} {v1 v2 : Field} {q : Option Nat × Node} (hroom : room ≠ 0)
    (hv : node.tablet.get row col = some v1) (h : node.exec i room (.cput row col v1 v2) = some q) :
    q = (some (node.tablet.lsn + 1),
      node.withTablet ((node.tablet.record (.put row col v2)).apply (.put row col v2))) := by
  obtain ⟨-, h⟩ := Option.ite_none_right_eq_some.mp h
  have hq := Option.some.inj h
  rw [Replica.cput_eq, if_pos ⟨hv, hroom⟩] at hq
  exact hq.symm

theorem exec_del_room {node : Node} {room : Nat} {q : Option (Option Nat) × Node} (hroom : room ≠ 0)
    (hv : node.tablet.get row col ≠ none) (h : node.exec i room (.del row col) = some q) :
    q = (some (some (node.tablet.lsn + 1)),
      node.withTablet ((node.tablet.record (.del row col)).apply (.del row col))) := by
  obtain ⟨-, h⟩ := Option.ite_none_right_eq_some.mp h
  have hq := Option.some.inj h
  rw [Replica.del_eq, if_neg hv, if_neg hroom] at hq
  exact hq.symm

section

variable (hc : Clear n w)
include hc

/-- Writing the old value back. -/
theorem wp_restore (hcell : op.cell = (row, col)) (hold : valueAt (w.log n) (row, col) = some val)
    (h : Follows n w (w.log n ++ [some op]) σ) :
    Wp (watched sort n) i net (fun _ => True) depth (.node n) (Manager.restore n row col val)
      (fun _ => Undone n w (w.log n) op) σ := by
  refine Wp.bind ((wp_put sort (room_undo hc hcell.symm) h).mono (fun lsn σ₁ hq => ?_))
  obtain ⟨rfl, h₁⟩ := hq
  refine Wp.bind ((wp_forwardToAll sort hc.others (opAt_append_last _ _) h₁).mono (fun _ σ₂ h₂ => ?_))
  refine ⟨.put row col val, hcell.symm, ?_, h₂⟩
  rw [hcell, hold]
  rfl

/-- Taking back a value that was not there before. -/
theorem wp_retract (hcell : op.cell = (row, col)) (hnew : op.value ≠ none)
    (hold : valueAt (w.log n) (row, col) = none) (h : Follows n w (w.log n ++ [some op]) σ) :
    Wp (watched sort n) i net (fun _ => True) depth (.node n) (Manager.retract n row col)
      (fun _ => Undone n w (w.log n) op) σ := by
  -- `del` finds what the write has just put, as no filter hides it
  have hfound : (σ.1.node n).tablet.get row col ≠ none := by
    rw [h.get, valueAt_append, if_pos hcell]
    exact hnew
  have hroom : Room n w (w.log n ++ [some op]) (.del row col) := room_undo hc hcell.symm
  refine wp_append sort hroom h rfl (fun _ _ hio => exec_del_room hio hfound) (fun σ₁ h₁ => ?_)
  have hop : opAt (w.log n ++ [some op] ++ [some (.del row col)]) ((σ.1.node n).tablet.lsn + 1) =
      some (.del row col) := by
    rw [h.lsn]
    exact opAt_append_last _ _
  refine Wp.bind ((wp_forwardToAll sort hc.others hop h₁).mono (fun _ σ₂ h₂ => ?_))
  refine ⟨.del row col, hcell.symm, ?_, h₂⟩
  rw [hcell, hold]
  rfl

/-- The end of a client write that has logged `op`. -/
theorem wp_closing (hstart : Follows n w (w.log n) (w, [])) (hk : k = (w.log n).length + 1)
    {rollback : ClusterProg Unit}
    (hroll : ∀ σ, Follows n w (w.log n ++ [some op]) σ →
      Wp (watched sort n) i net (fun _ => True) depth (.node n) rollback (fun _ => Undone n w (w.log n) op) σ)
    (h : Follows n w (w.log n ++ [some op]) σ) :
    Wp (watched sort n) i net (fun _ => True) depth (.node n) (Manager.closing n k op rollback)
      (fun status σ' => status = .quorumUnavailable → RolledBack n w σ') σ := by
  have hop : opAt (w.log n ++ [some op]) k = some op := by
    rw [hk]
    exact opAt_append_last _ _
  refine Wp.bind ((wp_forwardToAll sort hc.others hop h).mono (fun ok σ₁ h₁ => ?_))
  split
  · exact Wp.perform trivial (fun _ _ _ _ hne => absurd hne (by simp))
  · -- no quorum: two operations of the log, the second of which undoes the first
    refine Wp.bind ((hroll σ₁ h₁).mono (fun _ σ₂ h₂ => ?_))
    obtain ⟨undo, hcell, hvalue, hf⟩ := h₂
    exact wp_touch sort hf trivial (fun _ σ₃ h₃ _ _ => Undone.rolledBack hstart ⟨undo, hcell, hvalue, h₃⟩)

end

/-- A write that ends in another way. -/
theorem wp_finish_of_ne {status : KVPutStatus} (hne : status ≠ .quorumUnavailable) :
    Wp (watched sort n) i net (fun _ => True) depth (.node n) (Manager.finish status)
      (fun status σ' => status = .quorumUnavailable → RolledBack n w σ') σ :=
  Wp.perform trivial (fun _ _ _ _ h => absurd h hne)

/-- The opening of a client write. -/
theorem wp_opening {body : Option Field → ClusterProg KVPutStatus} (h : Follows n w log σ)
    (hbody : ∀ σ, Follows n w log σ →
      Wp (watched sort n) i net (fun _ => True) depth (.node n) (body (valueAt log (row, col)))
        (fun status σ' => status = .quorumUnavailable → RolledBack n w σ') σ) :
    Wp (watched sort n) i net (fun _ => True) depth (.node n) (Manager.opening row col body)
      (fun status σ' => status = .quorumUnavailable → RolledBack n w σ') σ := by
  refine wp_look sort rfl (fun _ => rfl) ?_
  split
  · exact fun hne => absurd hne (by simp)
  · refine wp_touch sort h trivial (fun _ σ₁ h₁ _ => ?_)
    refine wp_look sort rfl (fun _ => rfl) ?_
    rw [h₁.get]
    exact hbody _ h₁

/-- **A client write without its quorum is rolled back.** -/
theorem wp_client (hc : Clear n w) (cw : ClientWrite)
    (h : Follows n w (w.log n) (w, [])) :
    Wp (watched sort n) i net (fun _ => True) depth (.node n) (cw.prog n)
      (fun status σ' => status = .quorumUnavailable → RolledBack n w σ') (w, []) := by
  cases cw with
  | put row col val =>
      refine wp_opening sort h (fun σ₁ h₁ => ?_)
      refine Wp.bind ((wp_put sort (room_of_clear hc _) h₁).mono (fun lsn σ₂ hq => ?_))
      obtain ⟨rfl, h₂⟩ := hq
      refine wp_closing sort hc h rfl (fun σ₃ h₃ => ?_) h₂
      cases hold : valueAt (w.log n) (row, col) with
      | none => exact wp_retract sort hc rfl (by simp [Op.value]) hold h₃
      | some v => exact wp_restore sort hc rfl hold h₃
  | cput row col v1 v2 =>
      refine wp_opening sort h (fun σ₁ h₁ => ?_)
      split
      · exact wp_finish_of_ne sort (by simp)
      · rename_i hold
        have hold : valueAt (w.log n) (row, col) = some v1 := not_not.mp hold
        have hget := (h₁.get row col).trans hold
        refine wp_append sort (room_of_clear hc _) h₁ rfl (fun _ _ hio => exec_cput_room hio hget) (fun σ₂ h₂ => ?_)
        exact wp_closing sort hc h (by rw [h₁.lsn]) (fun σ₃ h₃ => wp_restore sort hc rfl hold h₃) h₂
  | delete row col =>
      refine wp_opening sort h (fun σ₁ h₁ => ?_)
      cases hold : valueAt (w.log n) (row, col) with
      | none =>
          -- nothing to delete, so nothing to undo
          have hget := (h₁.get row col).trans hold
          refine wp_read sort rfl (fun room v node hn => ?_)
          obtain ⟨-, hn⟩ := Option.ite_none_right_eq_some.mp hn
          have hq := Option.some.inj hn
          rw [Replica.del_eq, if_pos hget] at hq
          obtain ⟨rfl, rfl⟩ := Prod.mk.inj hq
          exact ⟨rfl, wp_finish_of_ne sort (by simp)⟩
      | some v =>
          have hget : (σ₁.1.node n).tablet.get row col ≠ none := by
            rw [h₁.get, hold]
            simp
          refine wp_append sort (room_of_clear hc _) h₁ rfl (fun _ _ hio => exec_del_room hio hget) (fun σ₂ h₂ => ?_)
          exact wp_closing sort hc h (by rw [h₁.lsn]) (fun σ₃ h₃ => wp_restore sort hc rfl hold h₃) h₂

/-! ## A write that leaves a trace -/

/-- Anything may happen to a request. -/
def anyNet : Net clusterSig where
  fails := fun _ => True
  arrives := fun _ => True

section Runs

variable {β : Type} {res : Option β}

/-- One action of a run, on disks with room. -/
theorem run_act {m : NodeId} {a : NodeAct} {f : a.Res → ClusterProg β} {x : a.Res} {node : Node}
    (h : ∀ room, room ≠ 0 → (σ.1.node m).exec i room a = some (x, node))
    (hf : runs (watched sort n) i net depth (.node m) (f x) (σ.1.setNode m node, noteAck m σ.2 a) res σ') :
    runs (watched sort n) i net depth (.node m) (Manager.act a >>= f) σ res σ' := by
  refine .inr ⟨1, x, (σ.1.setNode m node, noteAck m σ.2 a), ?_, hf⟩
  have hroom : (if Place.node m = Place.node n then 1 + 1 else 1) ≠ 0 := by
    split <;> omega
  show Option.map _ (Option.map _ ((σ.1.node m).exec i (if Place.node m = Place.node n then 1 + 1 else 1) a)) = _
  rw [h _ hroom]
  rfl

/-- One that changes nothing. -/
theorem run_look {m : NodeId} {a : NodeAct} {f : a.Res → ClusterProg β} {x : a.Res}
    (hnote : noteAck m σ.2 a = σ.2) (h : ∀ room, room ≠ 0 → (σ.1.node m).exec i room a = some (x, σ.1.node m))
    (hf : runs (watched sort n) i net depth (.node m) (f x) σ res σ') :
    runs (watched sort n) i net depth (.node m) (Manager.act a >>= f) σ res σ' := by
  refine run_act sort h ?_
  rw [hnote, World.setNode_eq_self]
  exact hf

/-- The next action at a node that has just moved. -/
theorem run_again {m : NodeId} {a : NodeAct} {f : a.Res → ClusterProg β} {x : a.Res} {v : World} {acks : Acks}
    {old node : Node} (hnote : noteAck m acks a = acks)
    (h : ∀ room, room ≠ 0 → old.exec i room a = some (x, node))
    (hf : runs (watched sort n) i net depth (.node m) (f x) (v.setNode m node, acks) res σ') :
    runs (watched sort n) i net depth (.node m) (Manager.act a >>= f) (v.setNode m old, acks) res σ' := by
  have hnext : ∀ room, room ≠ 0 → ((v.setNode m old).node m).exec i room a = some (x, node) := by
    rw [World.setNode_self]
    exact h
  refine run_act sort hnext ?_
  show runs (watched sort n) i net depth (.node m) (f x) ((v.setNode m old).setNode m node, noteAck m acks a) res σ'
  rw [hnote, World.setNode_setNode]
  exact hf

/-- A request nobody hears. -/
theorem sends_lost (c : Call) : sends (watched sort n) i anyNet depth c σ .refused σ := by
  have hfail : (Outcome.refused : Outcome Reply).IsFailure := fun r h => by cases h
  cases depth with
  | zero => exact ⟨trivial, hfail, rfl⟩
  | succ d => exact .inl ⟨trivial, hfail, rfl⟩

theorem run_lost {l : Place} {c : Call} {f : Outcome Reply → ClusterProg β}
    (hf : runs (watched sort n) i anyNet depth l (f .refused) σ res σ') :
    runs (watched sort n) i anyNet depth l (Manager.send c >>= f) σ res σ' :=
  .inr ⟨.refused, σ, sends_lost sort c, hf⟩

/-- `put` at a tablet that has the row. -/
theorem run_put {row col val : Field} (hfree : (σ.1.node n).tablet.walMu = none)
    (hrow : row ∈ (σ.1.node n).tablet.rows) :
    runs (watched sort n) i net depth (.node n) (Manager.put row col val) σ
      (some (some ((σ.1.node n).tablet.lsn + 1)))
      (σ.1.setNode n ((σ.1.node n).withTablet
        (((σ.1.node n).tablet.record (.put row col val)).apply (.put row col val))), σ.2) := by
  have hlog : ∀ room, room ≠ 0 →
      ((σ.1.node n).withTablet { (σ.1.node n).tablet with walMu := some i }).exec i room
          (.logOp (.put row col val))
        = some (some ((σ.1.node n).tablet.lsn + 1), (σ.1.node n).withTablet
            ({ (σ.1.node n).tablet with walMu := some i }.record (.put row col val))) := by
    intro room hroom
    simp only [Node.exec, Replica.logOp, if_neg hroom]
    rfl
  rw [← @Replica.lock_record_apply _ i hfree]
  refine run_act sort (fun _ _ => if_pos hfree) (run_again sort rfl hlog ?_)
  refine run_again sort rfl (fun _ _ => if_neg ?_) (run_again sort rfl (fun _ _ => rfl) ⟨rfl, rfl⟩)
  intro hwait
  rcases hwait.1 with hexclusive | hnew
  · exact absurd hexclusive (by simp)
  · exact hnew hrow

/-- A replica that hears REPLICATE at most, and `o` is what comes of it. -/
theorem run_forwardRepairing {q : NodeId} {o : Outcome Reply} (ho : o ≠ .sendFailed)
    (hs : sends (watched sort n) i anyNet depth (.replicate q k op) σ o σ') :
    runs (watched sort n) i anyNet depth (.node n) (Manager.forwardRepairing n q k op) σ
      (some (Manager.isOk o)) σ' := by
  have hfirst : runs (watched sort n) i anyNet depth (.node n) (Manager.forwardToReplica q k op) σ
      (some (Manager.isOk o)) σ' := by
    refine .inr ⟨o, σ', hs, ?_⟩
    cases o with
    | sendFailed => exact absurd rfl ho
    | refused | noReply | reply _ => exact ⟨rfl, rfl⟩
  refine runsWith_bind _ _ hfirst ?_
  cases Manager.isOk o with
  | true => exact ⟨rfl, rfl⟩
  | false => exact runsWith_bind _ _ (run_lost sort ⟨rfl, rfl⟩) ⟨rfl, rfl⟩

/-- The loop reads an entry that has not been freed. -/
theorem run_readReplica {p : ReplicaPtr} {f : NodeId → ClusterProg β} (hp : p.made = (σ.1.node n).cleared)
    (hf : runs (watched sort n) i net depth (.node n) (f p.id) σ res σ') :
    runs (watched sort n) i net depth (.node n) (Manager.act (.readReplica p) >>= f) σ res σ' := by
  have hread : ∀ room, room ≠ 0 → (σ.1.node n).exec i room (.readReplica p) = some (p.id, σ.1.node n) := by
    intro room _
    show some ((σ.1.node n).readReplica room p, σ.1.node n) = _
    unfold Node.readReplica
    rw [if_pos hp]
  exact run_look sort rfl hread hf

/-- Nobody hears anything. -/
theorem run_forwardEach_lost (todo : List ReplicaPtr) (htodo : ∀ p ∈ todo, p.made = (σ.1.node n).cleared)
    (acked : Nat) :
    runs (watched sort n) i anyNet depth (.node n) (Manager.forwardEach n k op todo acked) σ (some acked) σ := by
  induction todo with
  | nil => exact ⟨rfl, rfl⟩
  | cons p todo ih =>
      refine run_readReplica sort (htodo p List.mem_cons_self) ?_
      refine runsWith_bind _ _ (run_forwardRepairing sort (fun h => by cases h) (sends_lost sort _)) ?_
      exact run_look sort rfl (fun _ _ => rfl) (ih (fun q hq => htodo q (List.mem_cons_of_mem _ hq)))

/-- One replica hears REPLICATE. -/
theorem run_forwardEach_one {o : Outcome Reply} (ho : o ≠ .sendFailed)
    (hs : sends (watched sort n) i anyNet depth (.replicate r k op) σ o σ')
    (hcleared : (σ'.1.node n).cleared = (σ.1.node n).cleared) (todo : List ReplicaPtr)
    (htodo : ∀ p ∈ todo, p.made = (σ.1.node n).cleared) (hr : ∃ p ∈ todo, p.id = r) (acked : Nat) :
    runs (watched sort n) i anyNet depth (.node n) (Manager.forwardEach n k op todo acked) σ
      (some (if Manager.isOk o then acked + 1 else acked)) σ' := by
  induction todo with
  | nil =>
      obtain ⟨p, hp, -⟩ := hr
      exact absurd hp List.not_mem_nil
  | cons p todo ih =>
      have hrest : ∀ q ∈ todo, q.made = (σ.1.node n).cleared := fun q hq => htodo q (List.mem_cons_of_mem _ hq)
      refine run_readReplica sort (htodo p List.mem_cons_self) ?_
      by_cases hp : p.id = r
      · subst hp
        refine runsWith_bind _ _ (run_forwardRepairing sort ho hs) (run_look sort rfl (fun _ _ => rfl) ?_)
        exact run_forwardEach_lost sort todo (by rw [hcleared]; exact hrest) _
      · obtain ⟨q, hq, hqr⟩ := hr
        have hq : q ∈ todo := by
          rcases List.mem_cons.mp hq with rfl | hq
          · exact absurd hqr hp
          · exact hq
        refine runsWith_bind _ _ (run_forwardRepairing sort (fun h => by cases h) (sends_lost sort _)) ?_
        exact run_look sort rfl (fun _ _ => rfl) (ih hrest ⟨q, hq, hqr⟩)

/-- What becomes of a forwarded message when one replica hears it at most. -/
theorem run_forwardToAll {l : List ReplicaPtr} {acked : Nat}
    (hl : l = (σ.1.node n).replicas.map (fun id => ⟨id, (σ.1.node n).cleared⟩))
    (hne : (σ.1.node n).replicas ≠ [])
    (heach : runs (watched sort n) i anyNet depth (.node n) (Manager.forwardEach n k op l 0) σ (some acked) σ') :
    ∃ b, runs (watched sort n) i anyNet depth (.node n) (Manager.forwardToAll n k op) σ (some b) σ'
      ∧ (acked = 0 → b = false) := by
  have hlen : 0 < l.length := by
    rw [hl, List.length_map]
    exact List.length_pos_iff.mpr hne
  have hneed : Manager.requiredRemoteAcks l.length ≠ 0 := by
    unfold Manager.requiredRemoteAcks
    omega
  have hcopy : ∀ room, room ≠ 0 → (σ.1.node n).exec i room .copyReplicas = some (l, σ.1.node n) := by
    intro room _
    rw [hl]
    rfl
  refine ⟨decide (Manager.requiredRemoteAcks l.length ≤ acked), run_look sort rfl hcopy ?_, fun h0 => ?_⟩
  · rw [if_neg hneed]
    exact runsWith_bind _ _ heach ⟨rfl, rfl⟩
  · exact decide_eq_false (by omega)

theorem run_forwardToAll_lost (hne : (σ.1.node n).replicas ≠ []) :
    runs (watched sort n) i anyNet depth (.node n) (Manager.forwardToAll n k op) σ (some false) σ := by
  have heach := @run_forwardEach_lost sort n σ i depth k op
    ((σ.1.node n).replicas.map (fun id => ⟨id, (σ.1.node n).cleared⟩))
    (fun p hp => by
      obtain ⟨id, -, rfl⟩ := List.mem_map.mp hp
      rfl) 0
  obtain ⟨b, hb, hfalse⟩ := run_forwardToAll sort rfl hne heach
  rw [hfalse rfl] at hb
  exact hb

end Runs

/-- REPLICATE, at a replica with the primary's LSN. -/
theorem run_onReplicate (hfree : (σ.1.node r).tablet.walMu = none) (hreaders : (σ.1.node r).tablet.readers = 0) :
    runs (watched sort n) i net depth (.node r) (Manager.onReplicate ((σ.1.node r).tablet.lsn + 1) op) σ
      (some .ok)
      (σ.1.setNode r ((σ.1.node r).withTablet (((σ.1.node r).tablet.record op).apply op)),
        (r, (σ.1.node r).tablet.lsn + 1, op) :: σ.2) := by
  have hlog : ∀ room, room ≠ 0 →
      ((σ.1.node r).withTablet { (σ.1.node r).tablet with walMu := some i }).exec i room
          (.logNext ((σ.1.node r).tablet.lsn + 1) op)
        = some (.logged, (σ.1.node r).withTablet ({ (σ.1.node r).tablet with walMu := some i }.record op)) := by
    intro room hroom
    exact congrArg (fun q => some (q.1, (σ.1.node r).withTablet q.2))
      (Replica.logNext_next { (σ.1.node r).tablet with walMu := some i } hroom op)
  have happly : runs (watched sort n) i net depth (.node r)
      (Manager.applyReplicate ((σ.1.node r).tablet.lsn + 1) op) σ (some true)
      (σ.1.setNode r ((σ.1.node r).withTablet (((σ.1.node r).tablet.record op).apply op)), σ.2) := by
    rw [← @Replica.lock_record_apply _ i hfree]
    refine run_look sort rfl (fun _ _ => rfl) ?_
    rw [if_neg (by omega), if_neg (by simp)]
    refine run_act sort (fun _ _ => if_pos hfree) (run_again sort rfl hlog ?_)
    refine run_again sort rfl (fun _ _ => if_neg ?_) (run_again sort rfl (fun _ _ => rfl) ⟨rfl, rfl⟩)
    exact fun hwait => hwait.2 hreaders
  refine runsWith_bind _ _ happly ?_
  refine run_act sort (fun _ _ => rfl) ?_
  rw [World.setNode_eq_self]
  exact ⟨rfl, rfl⟩

/-! ## What a hidden row leads to -/

/-- `n` is a primary with replicas, and no lock is held. -/
structure Open (n : NodeId) (w : World) : Prop where
  isPrimary : (w.node n).isPrimary = true
  replicas : (w.node n).replicas ≠ []
  writing : (w.node n).writing = none
  walMu : ∀ m, m ∈ (w.node n).replicas ∨ m = n → (w.node m).tablet.walMu = none
  readers : ∀ r ∈ (w.node n).replicas, (w.node r).tablet.readers = 0

/-- The tablet once an operation has been logged and applied. -/
abbrev stored (t : Replica) (op : Op) : Replica := (t.record op).apply op

/-- A row that is there does not enter the filter again. -/
theorem bloom_stored {t : Replica} {row : Field} (hrow : row ∈ t.rows) (col val : Field) :
    (stored t (.put row col val)).bloom = t.bloom :=
  if_pos hrow

section Put

variable {β : Type} {res : Option β} {row col val : Field} {x : World} {acks : Acks} {node : Node}

/-- The opening of a write, in a world where nobody else writes. -/
theorem run_opening {body : Option Field → ClusterProg KVPutStatus} {res : Option KVPutStatus}
    (hprimary : (w.node n).isPrimary = true) (hfree : (w.node n).writing = none)
    (hbody : runs (watched sort n) i net depth (.node n) (body ((w.node n).tablet.get row col))
      (w.setNode n { w.node n with writing := some i }, []) res σ') :
    runs (watched sort n) i net depth (.node n) (Manager.opening row col body) (w, []) res σ' := by
  have hread : ∀ room, room ≠ 0 → (w.node n).exec i room .isPrimary = some (true, w.node n) := by
    intro room _
    rw [← hprimary]
    rfl
  refine run_look sort rfl hread ?_
  rw [if_neg (by simp)]
  exact run_act sort (fun _ _ => if_pos hfree) (run_again sort rfl (fun _ _ => rfl) hbody)

theorem run_put_at (hfree : node.tablet.walMu = none) (hrow : row ∈ node.tablet.rows) :
    runs (watched sort n) i net depth (.node n) (Manager.put row col val) (x.setNode n node, acks)
      (some (some (node.tablet.lsn + 1)))
      (x.setNode n (node.withTablet (stored node.tablet (.put row col val))), acks) := by
  have hself : (x.setNode n node).node n = node := World.setNode_self ..
  have hrun := @run_put sort n (x.setNode n node, acks) i net depth row col val
    (by rw [hself]; exact hfree) (by rw [hself]; exact hrow)
  rw [hself] at hrun
  have hagain : (x.setNode n node).setNode n (node.withTablet (stored node.tablet (.put row col val)))
      = x.setNode n (node.withTablet (stored node.tablet (.put row col val))) := World.setNode_setNode ..
  rw [← hagain]
  exact hrun

theorem run_forwardToAll_lost_at (hne : node.replicas ≠ []) :
    runs (watched sort n) i anyNet depth (.node n) (Manager.forwardToAll n k op) (x.setNode n node, acks)
      (some false) (x.setNode n node, acks) := by
  refine run_forwardToAll_lost sort ?_
  rw [World.setNode_self]
  exact hne

/-- A `del` of a cell that `get` does not see logs nothing. -/
theorem run_retract_hidden (hfree : node.tablet.walMu = none) (hne : node.replicas ≠ [])
    (hget : node.tablet.get row col = none) :
    runs (watched sort n) i anyNet depth (.node n) (Manager.retract n row col) (x.setNode n node, acks)
      (some ()) (x.setNode n node, acks) := by
  have hdel : ∀ room, room ≠ 0 → node.exec i room (.del row col) = some (some none, node) := by
    intro room _
    refine (if_pos hfree).trans ?_
    rw [Replica.del_eq, if_pos hget]
    rfl
  refine run_again sort rfl hdel ?_
  exact runsWith_bind _ _ (run_forwardToAll_lost_at sort hne) ⟨rfl, rfl⟩

end Put

/-- **A put on a row that the primary's filter hides** moves the LSN by one. -/
theorem exists_run_hidden (ho : Open n w) {row : Field} (hrow : row ∈ (w.node n).tablet.rows)
    (hhid : (w.node n).tablet.bloom.mayContain row.1 = false) :
    ∃ σ, runs (watched sort n) i anyNet depth (.node n) ((ClientWrite.put row row row).prog n) (w, [])
        (some .quorumUnavailable) σ
      ∧ (σ.1.node n).tablet.lsn = (w.node n).tablet.lsn + 1 := by
  have hget : (w.node n).tablet.get row row = none := Replica.get_hidden hhid row
  have hfree := ho.walMu n (.inr rfl)
  -- the second `get` finds nothing either
  have hgone : (stored (w.node n).tablet (.put row row row)).get row row = none :=
    Replica.get_hidden (by rw [bloom_stored hrow]; exact hhid) row
  refine ⟨(w.setNode n
      { (w.node n) with tablet := stored (w.node n).tablet (.put row row row), writing := none }, []),
    run_opening sort ho.isPrimary ho.writing ?_, ?_⟩
  · rw [hget]
    refine runsWith_bind _ _ (run_put_at sort hfree hrow) ?_
    refine runsWith_bind _ _ (run_forwardToAll_lost_at sort ho.replicas) ?_
    refine runsWith_bind _ _ (run_retract_hidden sort hfree ho.replicas hgone) ?_
    exact run_again sort (a := .answer .quorumUnavailable) rfl (fun _ _ => rfl) ⟨rfl, rfl⟩
  · rw [World.setNode_self]
    show ((w.node n).tablet.log ++ [some _]).length = (w.node n).tablet.log.length + 1
    rw [List.length_append]
    rfl

/-- A message that one replica hears, whatever comes of its answer. -/
theorem run_forwardToAll_one {x : World} {acks : Acks} {main node : Node} (hne : r ≠ n)
    (hr : r ∈ main.replicas) (hfree : node.tablet.walMu = none) (hreaders : node.tablet.readers = 0)
    {o : Outcome Reply} (ho : o = .noReply ∨ o = .reply .ok) :
    ∃ b, runs (watched sort n) i anyNet (depth + 1) (.node n)
        (Manager.forwardToAll n (node.tablet.lsn + 1) op) ((x.setNode r node).setNode n main, acks) (some b)
        ((x.setNode r (node.withTablet (stored node.tablet op))).setNode n main,
          (r, node.tablet.lsn + 1, op) :: acks)
      ∧ (o = .noReply → b = false) := by
  have hself : ((x.setNode r node).setNode n main).node r = node := by
    rw [World.setNode_of_ne hne, World.setNode_self]
  have hmain : ((x.setNode r node).setNode n main).node n = main := World.setNode_self ..
  have hnext : ((x.setNode r node).setNode n main).setNode r (node.withTablet (stored node.tablet op))
      = (x.setNode r (node.withTablet (stored node.tablet op))).setNode n main := by
    rw [World.setNode_comm _ (Ne.symm hne), World.setNode_setNode]
  have hhandled := @run_onReplicate sort n ((x.setNode r node).setNode n main, acks) i anyNet depth r op
    (by rw [hself]; exact hfree) (by rw [hself]; exact hreaders)
  rw [hself, hnext] at hhandled
  have hs : sends (watched sort n) i anyNet (depth + 1) (.replicate r (node.tablet.lsn + 1) op)
      ((x.setNode r node).setNode n main, acks) o
      ((x.setNode r (node.withTablet (stored node.tablet op))).setNode n main,
        (r, node.tablet.lsn + 1, op) :: acks) := by
    refine .inr ⟨trivial, .ok, hhandled, ?_⟩
    rcases ho with rfl | rfl
    · exact .inr ⟨trivial, fun r h => by cases h⟩
    · exact .inl rfl
  have hsend : o ≠ .sendFailed := by
    rcases ho with rfl | rfl
    · exact fun h => by cases h
    · exact fun h => by cases h
  have hlist : ∀ p ∈ main.replicas.map (fun id => (⟨id, main.cleared⟩ : ReplicaPtr)), p.made = main.cleared := by
    intro p hp
    obtain ⟨id, -, rfl⟩ := List.mem_map.mp hp
    rfl
  have heach := run_forwardEach_one sort hsend hs (by rw [World.setNode_self, hmain])
    (main.replicas.map (fun id => ⟨id, main.cleared⟩)) (by rw [hmain]; exact hlist)
    ⟨⟨r, main.cleared⟩, List.mem_map.mpr ⟨r, hr, rfl⟩, rfl⟩ 0
  obtain ⟨b, hb, hfalse⟩ := run_forwardToAll sort (by rw [hmain])
    (by rw [hmain]; exact List.ne_nil_of_mem hr) heach
  refine ⟨b, hb, ?_⟩
  rintro rfl
  exact hfalse rfl

/-- Writing back, at a tablet that has the row. -/
theorem run_restore {x : World} {acks : Acks} {node : Node} {row col val : Field} {b : Bool}
    (hfree : node.tablet.walMu = none) (hrow : row ∈ node.tablet.rows)
    (hforward : runs (watched sort n) i net depth (.node n)
      (Manager.forwardToAll n (node.tablet.lsn + 1) (.put row col val))
      (x.setNode n (node.withTablet (stored node.tablet (.put row col val))), acks) (some b) σ') :
    runs (watched sort n) i net depth (.node n) (Manager.restore n row col val) (x.setNode n node, acks)
      (some ()) σ' :=
  runsWith_bind _ _ (run_put_at sort hfree hrow) (runsWith_bind _ _ hforward ⟨rfl, rfl⟩)

/-- **A put on a row that a replica's filter hides**, where both have the same log and
the replica hears both messages, but the primary only its second answer. -/
theorem exists_run_stale (ho : Open n w) (hne : r ≠ n) (hr : r ∈ (w.node n).replicas)
    (hlsn : (w.node r).tablet.lsn = (w.node n).tablet.lsn) {row col v : Field}
    (hget : (w.node n).tablet.get row col = some v) (hrow : row ∈ (w.node r).tablet.rows)
    (hhid : (w.node r).tablet.bloom.mayContain row.1 = false) :
    ∃ (σ : World × Acks) (op : Op),
      runs (watched sort n) i anyNet (depth + 1) (.node n) ((ClientWrite.put row col v).prog n) (w, [])
        (some .quorumUnavailable) σ
      ∧ (r, (w.node n).tablet.lsn + 2, op) ∈ σ.2 ∧ (σ.1.node r).tablet.get row col = none := by
  have hmain : row ∈ (w.node n).tablet.rows := by
    refine Finmap.lookup_isSome.mp ?_
    unfold Replica.get Replica.findRow at hget
    split at hget
    · obtain ⟨cols, hcols, -⟩ := Option.bind_eq_some_iff.mp hget
      rw [hcols]
      rfl
    · exact absurd hget (by simp)
  have hfree := ho.walMu n (.inr rfl)
  have hfreeR := ho.walMu r (.inl hr)
  have hreaders := ho.readers r hr
  have hagain : row ∈ (stored (w.node n).tablet (.put row col v)).rows := Rows.mem_apply_of_mem hmain
  have hagainR : row ∈ (stored (w.node r).tablet (.put row col v)).rows := Rows.mem_apply_of_mem hrow
  -- the first message is heard and its answer lost; the second is answered
  obtain ⟨b₁, hfirst, hfalse⟩ := @run_forwardToAll_one sort n i depth r (.put row col v) w []
    { (w.node n) with tablet := stored (w.node n).tablet (.put row col v), writing := some i } (w.node r)
    hne hr hfreeR hreaders _ (.inl rfl)
  obtain rfl := hfalse rfl
  obtain ⟨b₂, hsecond, -⟩ := @run_forwardToAll_one sort n i depth r (.put row col v) w
    [(r, (w.node r).tablet.lsn + 1, .put row col v)]
    { (w.node n) with
      tablet := stored (stored (w.node n).tablet (.put row col v)) (.put row col v), writing := some i }
    ((w.node r).withTablet (stored (w.node r).tablet (.put row col v))) hne hr hfreeR hreaders _ (.inr rfl)
  have hlsn₂ : (stored (w.node r).tablet (.put row col v)).lsn = (w.node n).tablet.lsn + 1 := by
    rw [← hlsn]
    exact List.length_append
  have hlsnN : (stored (w.node n).tablet (.put row col v)).lsn = (w.node n).tablet.lsn + 1 := List.length_append
  have hw : w.setNode r (w.node r) = w := World.setNode_eq_self w r
  rw [hw, hlsn] at hfirst
  have hk : ((w.node r).withTablet (stored (w.node r).tablet (.put row col v))).tablet.lsn
      = (stored (w.node n).tablet (.put row col v)).lsn := hlsn₂.trans hlsnN.symm
  rw [hlsn, hk] at hsecond
  refine ⟨((w.setNode r
      ((w.node r).withTablet (stored (stored (w.node r).tablet (.put row col v)) (.put row col v)))).setNode n
      { (w.node n) with
        tablet := stored (stored (w.node n).tablet (.put row col v)) (.put row col v), writing := none },
    [(r, (stored (w.node n).tablet (.put row col v)).lsn + 1, .put row col v),
      (r, (w.node n).tablet.lsn + 1, .put row col v)]), .put row col v,
    run_opening sort ho.isPrimary ho.writing ?_, ?_, ?_⟩
  · rw [hget]
    refine runsWith_bind _ _ (run_put_at sort hfree hmain) ?_
    refine runsWith_bind _ _ hfirst ?_
    refine runsWith_bind _ _ (run_restore sort hfree hagain hsecond) ?_
    exact run_again sort (a := .answer .quorumUnavailable) rfl (fun _ _ => rfl) ⟨rfl, rfl⟩
  · refine List.mem_cons.mpr (.inl ?_)
    rw [hlsnN]
  · show (World.node _ r).tablet.get row col = none
    rw [World.setNode_of_ne hne, World.setNode_self]
    refine Replica.get_hidden ?_ col
    show (stored (stored (w.node r).tablet (.put row col v)) (.put row col v)).bloom.mayContain row.1 = false
    rw [bloom_stored hagainR, bloom_stored hrow]
    exact hhid

/-! ## The condition -/

/-- Where no filter stands in the way. -/
theorem rollsBack_of_clear (hr : Ready n w) (h : Clear n w) : RollsBack sort n w := by
  intro i cw net depth σ hrun
  exact ((wp_client sort h cw (h.follows hr)).sound hrun).1 _ rfl rfl

/-- The primary's filter may hide nothing. -/
theorem visible_of_rollsBack (ho : Open n w) (h : RollsBack sort n w) : (w.node n).tablet.Visible := by
  intro row hrow
  by_contra hhid
  have hhid : (w.node n).tablet.bloom.mayContain row.1 = false := by simpa using hhid
  obtain ⟨σ, hrun, hlsn⟩ := @exists_run_hidden sort n w 0 0 ho row hrow hhid
  have htwo := (h 0 _ _ _ σ hrun).lsn
  omega

/-- Nor may that of a replica with the primary's log, where the primary has a value. -/
theorem shows_of_rollsBack (hr : Ready n w) (ho : Open n w) (h : RollsBack sort n w) {r : NodeId}
    (hmem : r ∈ (w.node n).replicas) (hne : r ≠ n) (hlog : w.log r = w.log n) :
    Shows (Blank n w r) (w.node r).tablet := by
  intro row hrow
  by_cases hseen : (w.node r).tablet.bloom.mayContain row.1 = true
  · exact .inl hseen
  · have hhid : (w.node r).tablet.bloom.mayContain row.1 = false := by simpa using hseen
    refine .inr ⟨hne, fun col => ?_⟩
    by_contra hsome
    obtain ⟨v, hv⟩ := Option.ne_none_iff_exists'.mp hsome
    have hget : (w.node n).tablet.get row col = some v := by
      rw [(visible_of_rollsBack sort ho h).get, hr.cells n (.inr rfl)]
      exact hv
    have hlsn : (w.node r).tablet.lsn = (w.node n).tablet.lsn := congrArg List.length hlog
    obtain ⟨σ, op, hrun, hack, hgone⟩ := @exists_run_stale sort n w 0 0 r ho hne hmem hlsn row col v hget hrow hhid
    have hback := h 0 _ _ _ σ hrun
    have hsame := hback.acked r op hack row col
    rw [hgone, hback.same, hget] at hsame
    exact absurd hsame (by simp)

section Trio

open Trio

theorem ready_world : Ready a Trio.world := by
  refine ⟨fun r _ => List.prefix_refl _, rfl, fun m _ c => ?_⟩
  exact Rows.cell_of_notMem Finmap.notMem_empty

theorem clear_world : Clear a Trio.world := by
  refine ⟨fun row hrow => absurd hrow Finmap.notMem_empty,
    fun r _ row hrow => absurd hrow Finmap.notMem_empty, ?_, apply_emptyRows_fits, ?_⟩
  · exact List.suffix_refl _
  · decide +kernel

/-- Messages with LSN 1 get lost. -/
def firstLost : Call → Bool
  | .replicate _ lsn _ => lsn == 1
  | _ => false

/-- Nothing else does. -/
def firstLossy : Net clusterSig where
  fails := fun c => firstLost c = true
  arrives := fun c => firstLost c = false

/-- `a` holds a value in a row that its filter does not know, as after a start from a
checkpoint file that ends before its filter. -/
def hidden : World :=
  Trio.world.setNode a { (Trio.world.node a) with
    tablet := { stored .empty (.put x x y) with bloom := .empty } }

theorem ready_hidden : Ready a hidden := by
  have hself : (hidden.node a).tablet = { stored .empty (.put x x y) with bloom := .empty } :=
    congrArg Node.tablet (World.setNode_self ..)
  have hother : ∀ m, m ≠ a → (hidden.node m).tablet = Replica.empty := fun m hm =>
    congrArg Node.tablet (World.setNode_of_ne hm)
  refine ⟨fun r hr => ?_, ?_, fun m _ c => ?_⟩
  · by_cases hra : r = a
    · subst hra
      exact List.prefix_refl _
    · show (hidden.node r).tablet.log <+: _
      rw [hother r hra]
      exact List.nil_prefix
  · rw [hself]
    rfl
  · show (hidden.node m).tablet.rows.cell c = valueAt (hidden.node m).tablet.log c
    by_cases hm : m = a
    · subst hm
      rw [hself]
      show (Rows.apply ∅ (.put x x y)).cell c = valueAt ([] ++ [some (.put x x y)]) c
      rw [valueAt_append]
      by_cases hc : (Op.put x x y).cell = c
      · rw [if_pos hc, ← hc, Rows.cell_apply_self]
      · rw [if_neg hc, Rows.cell_apply_of_ne (Ne.symm hc)]
        exact Rows.cell_of_notMem Finmap.notMem_empty
    · rw [hother m hm]
      exact Rows.cell_of_notMem Finmap.notMem_empty

end Trio

end NCloud.Rollback
