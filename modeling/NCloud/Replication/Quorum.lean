import NCloud.Replication.Agreement

/-!
# Role changes and quorums

A client write tests `is_primary_`, logs its operation, and only then copies the
replica list whose length decides how many acknowledgements it needs. The handlers
that change the role and the list do not take `primary_write_mu_`, so the list it
copies may be another one than stood there at the test, and its entries may be freed
while the write still forwards to them.

The history kept here has a ticket for every write past its test and the calls of
`clear_replicas` at every node; the logs come from the history of `Agreement`, which
watches the same run. `Honest` says what a write answered OK should be able to show. It
can, as long as every write copies a list that is still good for the one at its test and
uses no entry that has been freed (`Keeps`), and REPLICATE is acknowledged by nodes that
have logged it, which is what agreement gives.
-/

namespace NCloud.Quorum

open Process Wire

/-! ## The history -/

/-- A client write past its test of `is_primary_`. -/
structure Ticket where
  node : NodeId
  /-- The replica list at the test. -/
  seen : List NodeId
  /-- How often the list had been cleared by then. -/
  clears : Nat
  /-- The operation it logged and its LSN. -/
  record : Option (Nat × Op)
  /-- The list it copied, and the clears since the test. -/
  copied : Option (List NodeId × List Bool)

/-- A client write that returned OK. -/
structure Answer where
  ticket : Ticket
  isPrimary : Bool
  /-- The clears since the test, at its return. -/
  since : List Bool

/-- What the observer remembers. -/
structure Past where
  ticket : Nat → Option Ticket
  /-- Calls of `clear_replicas`, the latest first; `true` for BECOME_PRIMARY. -/
  clears : NodeId → List Bool
  answers : List Answer

namespace Past

/-- Nothing has happened. -/
def init : Past := { ticket := fun _ => none, clears := fun _ => [], answers := [] }

/-- The clears at the node of a write since its test. -/
def since (p : Past) (t : Ticket) : List Bool :=
  (p.clears t.node).take ((p.clears t.node).length - t.clears)

/-- Change a ticket. -/
def setTicket (p : Past) (i : Nat) (t : Option Ticket) : Past :=
  { p with ticket := Function.update p.ticket i t }

/-- Thread `i` has logged an operation. -/
def record (p : Past) (i k : Nat) (op : Op) : Past :=
  p.setTicket i ((p.ticket i).map (fun t =>
    if t.record = none then { t with record := some (k, op) } else t))

/-- Thread `i` copies the replica list. Only the copy after the first record counts. -/
def copy (p : Past) (i : Nat) (n : NodeId) (replicas : List NodeId) : Past :=
  p.setTicket i ((p.ticket i).map (fun t =>
    if t.node = n ∧ t.record ≠ none ∧ t.copied = none then
      { t with copied := some (replicas, p.since t) }
    else t))

/-- Thread `i` returns from a client write. -/
def answer (p : Past) (i : Nat) (isPrimary : Bool) (status : KVPutStatus) : Past :=
  match status, p.ticket i with
  | .ok, some t =>
      { p.setTicket i none with answers := ⟨t, isPrimary, p.since t⟩ :: p.answers }
  | _, _ => p.setTicket i none

/-- Thread `i` has done an action at a node, which is now `node`. -/
def note (p : Past) (i : Nat) (n : NodeId) (node : Node) : (a : NodeAct) → a.Res → Past
  | .isPrimary, (true : Bool) =>
      p.setTicket i (some ⟨n, node.replicas, (p.clears n).length, none, none⟩)
  | .logOp op, (some k : Option Nat) => p.record i k op
  | .cput row col _ v2, (some k : Option Nat) => p.record i k (.put row col v2)
  | .del row col, (some (some k) : Option (Option Nat)) => p.record i k (.del row col)
  | .copyReplicas, (replicas : List ReplicaPtr) => p.copy i n (replicas.map ReplicaPtr.id)
  | .clearReplicas promoting, _ =>
      { p with clears := Function.update p.clears n (promoting :: p.clears n) }
  | .answer status, _ => p.answer i node.isPrimary status
  | _, _ => p

/-- A place has restarted, and the writes there are gone. -/
def restart (p : Past) (l : Place) : Past :=
  { p with ticket := fun i => (p.ticket i).filter (fun t => decide (.node t.node ≠ l)) }

end Past

variable (sort : List CoordProg.Candidate → List CoordProg.Candidate)

/-- The observer. -/
def observer : Observer (Agreement.watched sort) where
  Past := Past
  note := fun i l a r _ σ p =>
    match l, a, r with
    | .node n, .node a, r => p.note i n (σ.1.node n) a r
    | _, _, _ => p
  sent := fun _ _ _ p => p
  lost := fun _ p => p
  restart := fun l p => p.restart l

/-- The cluster with both histories. -/
abbrev watched : System clusterSig := (Agreement.watched sort).observe (observer sort)

/-- Its states. -/
abbrev St := (World × Agreement.Past) × Past

/-! ## What a write answered OK can show -/

/-- A majority of the node and the replicas it had at the test has logged the
operation, unless the node is still primary and has been made primary again. And the
list that decided had not been emptied by a demotion. -/
structure Honest (logs : List (NodeId × Log)) (a : Answer) : Prop where
  quorum : ∀ k op, a.ticket.record = some (k, op) → a.ticket.seen ≠ [] →
    (a.ticket.node :: a.ticket.seen).length
        < 2 * (a.ticket.node :: a.ticket.seen).countP (logged logs k op)
      ∨ (a.isPrimary = true ∧ true ∈ a.since)
  emptied : ∀ since, a.ticket.copied = some ([], since) → since.head? ≠ some false

/-- Acknowledgements that make a quorum of `copied` make one of `seen`, whoever sends
them. -/
def Good (seen copied : List NodeId) : Prop :=
  seen = [] ∨ Manager.requiredRemoteAcks seen.length + (copied.diff seen).length
    ≤ Manager.requiredRemoteAcks copied.length

instance (seen copied : List NodeId) : Decidable (Good seen copied) := inferInstanceAs (Decidable (_ ∨ _))

/--
The condition on a step.

The list a write copies is good for the list at its test, or belongs to a later
BECOME_PRIMARY of a node that is still primary; it has not been emptied by a demotion
since the test. A node whose write relies on a later BECOME_PRIMARY is not demoted
before the write returns. No entry of a replica list is used after `clear_replicas` has
freed it.
-/
def Keeps (i : Nat) (l : Place) (_ : Nat) (a : Act) (σ : St) : Prop :=
  match l, a with
  | .node n, .node .copyReplicas => ∀ t, σ.2.ticket i = some t → t.node = n → t.record ≠ none →
      t.copied = none →
      (Good t.seen (σ.1.1.node n).replicas
        ∨ ((σ.1.1.node n).isPrimary = true ∧ true ∈ σ.2.since t))
      ∧ ((σ.1.1.node n).replicas = [] → (σ.2.since t).head? ≠ some false)
  | .node n, .node (.setPrimary false) => ∀ i' t rs since, σ.2.ticket i' = some t → t.node = n →
      t.copied = some (rs, since) → Good t.seen rs
  | .node n, .node (.readReplica r) => r.made = (σ.1.1.node n).cleared
  | .node n, .node (.setReplicaAlive r _ _) => r.made = (σ.1.1.node n).cleared
  | _, _ => True

/-- A REPLICATE is acknowledged by nodes that have logged it. -/
def Logged (l : Place) (a : Act) (σ : St) : Prop :=
  match l, a with
  | .node n, .node (.ack k op) => k = 0 ∨ logged ((n, σ.1.1.log n) :: σ.1.2.logs) k op n = true
  | _, _ => True

/-! ## Logs only accumulate -/

section Logs

variable {logs logs' : List (NodeId × Log)}

theorem countP_logged_mono (h : logs ⊆ logs') (k : Nat) (op : Op) (ns : List NodeId) :
    ns.countP (logged logs k op) ≤ ns.countP (logged logs' k op) :=
  List.countP_mono_left (fun _ _ hl => logged_mono h hl)

theorem Honest.mono (h : logs ⊆ logs') {a : Answer} (ha : Honest logs a) : Honest logs' a where
  quorum := by
    intro k op hrec hseen
    rcases ha.quorum k op hrec hseen with hq | hq
    · exact .inl (Nat.lt_of_lt_of_le hq
        (Nat.mul_le_mul_left 2 (countP_logged_mono h k op _)))
    · exact .inr hq
  emptied := ha.emptied

end Logs

/-! ## Counting -/

/-- Members of one list are members of another or of what is left over. -/
theorem countP_le_add_diff (p : NodeId → Bool) (copied seen : List NodeId) :
    copied.countP p ≤ seen.countP p + (copied.diff seen).length := by
  induction seen generalizing copied with
  | nil =>
      rw [List.diff_nil, List.countP_nil, Nat.zero_add]
      exact List.countP_le_length
  | cons n seen ih =>
      -- take `n` out of both
      have herase : copied.countP p ≤ (n :: copied.erase n).countP p :=
        List.Subperm.countP_le p (List.subperm_cons_erase n copied)
      have hrest := ih (copied.erase n)
      rw [List.countP_cons] at herase
      rw [List.diff_cons, List.countP_cons]
      omega

/-- A quorum of a good list makes a majority of the list at the test. -/
theorem majority_of_good {n : NodeId} {seen copied : List NodeId} {p : NodeId → Bool}
    (hg : Good seen copied) (hne : seen ≠ []) (hn : p n = true)
    (hq : Manager.requiredRemoteAcks copied.length ≤ copied.countP p) :
    (n :: seen).length < 2 * (n :: seen).countP p := by
  rcases hg with hg | hg
  · exact absurd hg hne
  · have hcount := countP_le_add_diff p copied seen
    rw [List.length_cons, List.countP_cons_of_pos hn]
    simp only [Manager.requiredRemoteAcks] at hg hq
    omega

/-! ## The invariant -/

/-- What a ticket with a copied list can count on. -/
def Backed (w : World) (p : Past) (t : Ticket) : Prop :=
  ∀ rs since, t.copied = some (rs, since) →
    (Good t.seen rs ∨ ((w.node t.node).isPrimary = true ∧ true ∈ p.since t))
      ∧ (rs = [] → since.head? ≠ some false)

/-- The invariant. -/
structure Inv (σ : St) : Prop where
  old : ∀ i t, σ.2.ticket i = some t → t.clears ≤ (σ.2.clears t.node).length
  backed : ∀ i t, σ.2.ticket i = some t → Backed σ.1.1 σ.2 t
  honest : ∀ a ∈ σ.2.answers, Honest σ.1.2.logs a

/-- What a REPLICATE answered `+OK` says. -/
def Acked (logs : List (NodeId × Log)) : Call → Reply → Prop
  | .replicate n k op, .ok => k = 0 ∨ logged logs k op n = true
  | _, _ => True

theorem Acked.mono {logs logs' : List (NodeId × Log)} (h : logs ⊆ logs') {c : Call} {r : Reply}
    (ha : Acked logs c r) : Acked logs' c r := by
  cases c <;> cases r <;> try trivial
  exact ha.imp id (logged_mono h)

theorem mem_since_cons {p : Past} {t : Ticket} {n : NodeId} {b : Bool}
    (hold : t.clears ≤ (p.clears t.node).length) (h : true ∈ p.since t) :
    true ∈ Past.since { p with clears := Function.update p.clears n (b :: p.clears n) } t := by
  by_cases hn : t.node = n
  · subst hn
    simp only [Past.since, Function.update_self, List.length_cons]
    rw [Nat.succ_sub hold, List.take_succ_cons]
    exact List.mem_cons_of_mem _ h
  · simpa only [Past.since, Function.update_of_ne hn] using h

theorem ticket_restart {p : Past} {l : Place} {i : Nat} {t : Ticket} (ht : p.ticket i = some t)
    (hl : .node t.node ≠ l) : (p.restart l).ticket i = some t :=
  Option.filter_eq_some_iff.mpr ⟨ht, decide_eq_true hl⟩

/-- A restart takes the node's tickets with it. -/
theorem Inv.restart {σ : St} (h : Inv σ) (l : Place) :
    Inv ((σ.1.1.restart l, σ.1.2), σ.2.restart l) := by
  obtain ⟨⟨w, q⟩, p⟩ := σ
  have hkeep : ∀ {i t}, (p.restart l).ticket i = some t → p.ticket i = some t ∧ .node t.node ≠ l := by
    intro i t ht
    obtain ⟨h₁, h₂⟩ := Option.filter_eq_some_iff.mp ht
    exact ⟨h₁, of_decide_eq_true h₂⟩
  refine ⟨fun i t ht => h.old i t (hkeep ht).1, ?_, h.honest⟩
  intro i t ht rs since hc
  obtain ⟨hold, hl⟩ := hkeep ht
  have hb := h.backed i t hold rs since hc
  cases l with
  | coord => exact hb
  | node n =>
      have hn : t.node ≠ n := fun hn => hl (by rw [hn])
      have hsame : (w.restart (.node n)).node t.node = w.node t.node :=
        World.node_restart_of_ne w (fun h => hn (Place.node.inj h).symm)
      show (_ ∨ ((w.restart (.node n)).node t.node).isPrimary = true ∧ _) ∧ _
      rw [hsame]
      exact hb

/-- The logic. -/
def logic : Logic (watched sort) where
  Inv := Inv
  Step := fun σ σ' => σ.1.2.logs ⊆ σ'.1.2.logs
  Rely := fun i l σ σ' => σ.1.2.logs ⊆ σ'.1.2.logs
    ∧ ∀ t, σ.2.ticket i = some t → l = .node t.node → σ'.2.ticket i = some t
  Ok := fun i l io a σ => Keeps i l io a σ ∧ Logged l a σ
  Req := fun _ _ _ => True
  Rep := fun c r σ => Acked σ.1.2.logs c r
  step_refl := fun _ => List.Subset.refl _
  rely_step := fun h => h.1
  rely_refl := fun _ _ _ => ⟨List.Subset.refl _, fun _ ht _ => ht⟩
  rely_trans := fun h₁ h₂ => ⟨List.Subset.trans h₁.1 h₂.1, fun t ht hl => h₂.2 t (h₁.2 t ht hl) hl⟩
  req_stable := fun _ _ => trivial
  rep_stable := fun h hr => hr.mono h
  sent_ok := fun h => ⟨h, List.Subset.refl _, fun _ _ _ => ⟨List.Subset.refl _, fun _ ht _ => ht⟩⟩
  lost_ok := fun h => ⟨h, List.Subset.refl _, fun _ _ _ => ⟨List.Subset.refl _, fun _ ht _ => ht⟩⟩
  restart_ok := fun h _ => ⟨h.restart _, List.Subset.refl _,
    fun _ _ hl => ⟨List.Subset.refl _, fun _ ht ht' => ticket_restart ht (ht' ▸ hl)⟩⟩

/-! ## Actions -/

theorem note_ticket_of_ne {p : Past} {i i' : Nat} (h : i' ≠ i) (n : NodeId) (node : Node) (a : NodeAct)
    (r : a.Res) : (p.note i n node a r).ticket i' = p.ticket i' := by
  unfold Past.note
  split
  all_goals first
    | rfl
    | exact Function.update_of_ne h ..
    | (simp only [Past.answer]; split <;> exact Function.update_of_ne h ..)

variable {w : World} {q : Agreement.Past} {p : Past} {i : Nat} {n : NodeId}

/-- A node changes. Only the end of its being primary matters. -/
theorem Inv.setNode (h : Inv ((w, q), p)) {node : Node} {q' : Agreement.Past} (hlogs : q.logs ⊆ q'.logs)
    (hp : (w.node n).isPrimary = true → node.isPrimary = true ∨
      ∀ i t rs since, p.ticket i = some t → t.node = n → t.copied = some (rs, since) →
        Good t.seen rs) : Inv ((w.setNode n node, q'), p) := by
  refine ⟨h.old, ?_, fun a ha => (h.honest a ha).mono hlogs⟩
  intro i t ht rs since hc
  obtain ⟨hgood, hempty⟩ := h.backed i t ht rs since hc
  refine ⟨?_, hempty⟩
  rcases hgood with hg | ⟨hprim, hmem⟩
  · exact .inl hg
  · by_cases hn : t.node = n
    · subst hn
      rcases hp hprim with hnew | hall
      · exact .inr ⟨by rw [World.setNode_self]; exact hnew, hmem⟩
      · exact .inl (hall i t rs since ht rfl hc)
    · exact .inr ⟨by rw [World.setNode_of_ne hn]; exact hprim, hmem⟩

/-- A ticket is made or changed. -/
theorem Inv.setTicket (h : Inv ((w, q), p)) (t : Option Ticket)
    (ht : ∀ u, t = some u → u.clears ≤ (p.clears u.node).length ∧ Backed w p u) :
    Inv ((w, q), p.setTicket i t) := by
  have hcases : ∀ i' u, (p.setTicket i t).ticket i' = some u → t = some u ∨ p.ticket i' = some u := by
    intro i' u hu
    by_cases hi : i' = i
    · subst hi; exact .inl (by simpa [Past.setTicket] using hu)
    · exact .inr (by simpa [Past.setTicket, Function.update_of_ne hi] using hu)
  refine ⟨?_, ?_, h.honest⟩
  · intro i' u hu
    rcases hcases i' u hu with hu | hu
    · exact (ht u hu).1
    · exact h.old i' u hu
  · intro i' u hu
    rcases hcases i' u hu with hu | hu
    · exact (ht u hu).2
    · exact h.backed i' u hu

theorem Inv.record (h : Inv ((w, q), p)) (k : Nat) (op : Op) : Inv ((w, q), p.record i k op) := by
  refine h.setTicket _ ?_
  intro u hu
  obtain ⟨t, ht, rfl⟩ := Option.map_eq_some_iff.mp hu
  split
  · exact ⟨h.old i t ht, h.backed i t ht⟩
  · exact ⟨h.old i t ht, h.backed i t ht⟩

theorem Inv.copy (h : Inv ((w, q), p)) {rs : List NodeId}
    (hc : ∀ t, p.ticket i = some t → t.node = n → t.record ≠ none → t.copied = none →
      (Good t.seen rs ∨ ((w.node n).isPrimary = true ∧ true ∈ p.since t))
        ∧ (rs = [] → (p.since t).head? ≠ some false)) : Inv ((w, q), p.copy i n rs) := by
  refine h.setTicket _ ?_
  intro u hu
  obtain ⟨t, ht, rfl⟩ := Option.map_eq_some_iff.mp hu
  split
  · rename_i hrec
    obtain ⟨rfl, hrec, hcop⟩ := hrec
    refine ⟨h.old i t ht, ?_⟩
    rintro rs' since ⟨⟩
    exact hc t ht rfl hrec hcop
  · exact ⟨h.old i t ht, h.backed i t ht⟩

theorem Inv.clear (h : Inv ((w, q), p)) (b : Bool) :
    Inv ((w, q), { p with clears := Function.update p.clears n (b :: p.clears n) }) := by
  refine ⟨?_, ?_, h.honest⟩
  · intro i t ht
    refine Nat.le_trans (h.old i t ht) ?_
    by_cases hn : t.node = n
    · subst hn; simp
    · simp [Function.update_of_ne hn]
  · intro i t ht rs since hc
    obtain ⟨hgood, hempty⟩ := h.backed i t ht rs since hc
    exact ⟨hgood.imp id (fun hg => ⟨hg.1, mem_since_cons (h.old i t ht) hg.2⟩), hempty⟩

theorem Inv.answer (h : Inv ((w, q), p)) {b : Bool} {status : KVPutStatus}
    (ha : status = .ok → ∀ t, p.ticket i = some t → Honest q.logs ⟨t, b, p.since t⟩) :
    Inv ((w, q), p.answer i b status) := by
  have hnone : Inv ((w, q), p.setTicket i none) := h.setTicket none nofun
  simp only [Past.answer]
  split
  · rename_i t ht
    refine ⟨hnone.old, hnone.backed, ?_⟩
    intro a hmem
    rcases List.mem_cons.mp hmem with rfl | hmem
    · exact ha rfl t ht
    · exact h.honest a hmem
  · exact hnone

/-- What an action of a node does. -/
theorem exec_node {σ σ' : St} {io : Nat} {a : NodeAct} {r : a.Res}
    (h : (watched sort).exec i (.node n) io (.node a) σ = some (r, σ')) :
    ∃ node, (σ.1.1.node n).exec i io a = some (r, node)
      ∧ σ' = ((σ.1.1.setNode n node, (σ.1.2.seeLog n node.tablet.log).note i n a r),
        σ.2.note i n node a r) := by
  obtain ⟨σ₁, h₁, rfl⟩ := System.exec_observe h
  obtain ⟨node, hn, rfl⟩ := Agreement.exec_node sort h₁
  refine ⟨node, hn, Prod.ext rfl ?_⟩
  have hself : (σ.1.1.setNode n node).node n = node := World.setNode_self ..
  show σ.2.note i n ((σ.1.1.setNode n node).node n) a r = _
  rw [hself]

/-- The logs an action leaves behind. -/
theorem logs_exec {σ σ' : St} {io : Nat} {a : NodeAct} {r : a.Res}
    (h : (watched sort).exec i (.node n) io (.node a) σ = some (r, σ')) :
    σ'.1.2.logs = (n, σ'.1.1.log n) :: σ.1.2.logs := by
  obtain ⟨node, -, rfl⟩ := exec_node sort h
  show ((σ.1.2.seeLog n node.tablet.log).note i n a r).logs = (n, (σ.1.1.setNode n node).log n) :: σ.1.2.logs
  rw [Agreement.note_logs, World.log_setNode_self]
  rfl

/-- **An action under the condition keeps the invariant.** What is asked of a write
that returns OK is asked of its ticket. -/
theorem change_node {σ σ' : St} {io : Nat} {a : NodeAct} {r : a.Res} (h : Inv σ)
    (hok : Keeps i (.node n) io (.node a) σ)
    (hans : a = .answer .ok → ∀ t, σ.2.ticket i = some t →
      Honest σ.1.2.logs ⟨t, (σ.1.1.node n).isPrimary, σ.2.since t⟩)
    (he : (watched sort).exec i (.node n) io (.node a) σ = some (r, σ')) :
    (logic sort).Change i σ σ' := by
  have hlogs : σ.1.2.logs ⊆ σ'.1.2.logs := by
    rw [logs_exec sort he]
    exact List.subset_cons_self ..
  obtain ⟨⟨w, q⟩, p⟩ := σ
  obtain ⟨node, hn, rfl⟩ := exec_node sort he
  refine ⟨?_, hlogs, fun i' l hi => ⟨hlogs, fun t ht _ => ?_⟩⟩
  · -- the world first, then the notes
    have hw : (∀ b, a ≠ .setPrimary b) →
        Inv ((w.setNode n node, (q.seeLog n node.tablet.log).note i n a r), p) :=
      fun hne => h.setNode hlogs (fun hp => .inl ((Node.exec_isPrimary hne hn).trans hp))
    cases a with
    | setPrimary b =>
        obtain ⟨-, rfl⟩ := Prod.mk.inj (Option.some.inj hn)
        refine h.setNode hlogs (fun _ => ?_)
        cases b with
        | true => exact .inl rfl
        | false => exact .inr hok
    | isPrimary =>
        have hw := hw (by simp)
        cases r with
        | true =>
            refine hw.setTicket _ ?_
            rintro u ⟨⟩
            exact ⟨Nat.le_refl _, nofun⟩
        | false => exact hw
    | logOp op =>
        have hw := hw (by simp)
        cases r with
        | none => exact hw
        | some k => exact hw.record k _
    | cput row col v1 v2 =>
        have hw := hw (by simp)
        cases r with
        | none => exact hw
        | some k => exact hw.record k _
    | del row col =>
        have hw := hw (by simp)
        rcases r with _ | _ | k
        · exact hw
        · exact hw
        · exact hw.record k _
    | copyReplicas =>
        have hw := hw (by simp)
        obtain ⟨rfl, rfl⟩ := Prod.mk.inj (Option.some.inj hn)
        have hids : ((w.node n).replicas.map (fun id => (⟨id, (w.node n).cleared⟩ : ReplicaPtr))).map
            ReplicaPtr.id = (w.node n).replicas := by
          rw [List.map_map]
          exact List.map_id _
        refine hw.copy ?_
        intro t ht htn hrec hcop
        rw [World.setNode_self, hids]
        exact hok t ht htn hrec hcop
    | clearReplicas b => exact (hw (by simp)).clear b
    | answer status =>
        have hw := hw (by simp)
        obtain ⟨-, rfl⟩ := Prod.mk.inj (Option.some.inj hn)
        refine hw.answer ?_
        rintro rfl t ht
        exact (hans rfl t ht).mono hlogs
    | _ => exact hw (by simp)
  · show (p.note i n node a r).ticket i' = some t
    rw [note_ticket_of_ne hi]
    exact ht

/-- The coordinator's actions do not concern the nodes. -/
theorem change_coord {σ σ' : St} {io : Nat} {a : CoordAct} {r : coordSig.Res a} (h : Inv σ)
    (he : (watched sort).exec i .coord io (.coord a) σ = some (r, σ')) :
    (logic sort).Change i σ σ' := by
  obtain ⟨σ₁, h₁, rfl⟩ := System.exec_observe he
  obtain ⟨w', hw, rfl⟩ := System.exec_observe h₁
  have hw : World.exec i .coord io (.coord a) σ.1.1 = some (r, w') := hw
  obtain ⟨rfl, rfl⟩ := World.exec_coord hw
  exact ⟨⟨h.old, h.backed, h.honest⟩, List.Subset.refl _,
    fun _ _ _ => ⟨List.Subset.refl _, fun _ ht _ => ht⟩⟩

/-! ## Programs -/

/-- Programs that return no OK to a client. -/
theorem safe_of_not_ok {α : Type} {prog : ClusterProg α}
    (hp : prog.Only (fun a => a ≠ Act.node (.answer .ok)) (fun _ => True)) (i : Nat) (l : Place) (σ : St) :
    (logic sort).Safe i l prog (fun _ _ => True) σ := by
  refine Logic.safe_of_only (L := logic sort) ?_ (fun _ _ _ _ _ => trivial) hp σ
  intro a io σ r σ' ha hi hok he
  cases l with
  | node n =>
      cases a with
      | node a => exact change_node sort hi hok.1 (fun h => absurd (congrArg Act.node h) ha) he
      | coord a => exact absurd he nofun
  | coord =>
      cases a with
      | node a => exact absurd he nofun
      | coord a => exact change_coord sort hi he

theorem safe_quiet {α : Type} {prog : ClusterProg α} (hp : Quiet prog) (i : Nat) (l : Place)
    (σ : St) : (logic sort).Safe i l prog (fun _ _ => True) σ :=
  safe_of_not_ok sort (hp.mono (fun a ha h => by subst h; exact ha) (fun _ h => h)) i l σ

/-- What a client write knows about its own ticket. -/
def Holding (i : Nat) (n : NodeId) (record : Option (Nat × Op)) (copied : Option (List NodeId))
    (σ : St) : Prop :=
  ∃ t, σ.2.ticket i = some t ∧ t.node = n ∧ t.record = record ∧ t.copied.map Prod.fst = copied

theorem Holding.rely {record : Option (Nat × Op)} {copied : Option (List NodeId)}
    {σ σ' : St} (h : Holding i n record copied σ)
    (hr : (logic sort).Rely i (.node n) σ σ') : Holding i n record copied σ' := by
  obtain ⟨t, ht, rfl, hrec, hcop⟩ := h
  exact ⟨t, hr.2 t ht rfl, rfl, hrec, hcop⟩

/-- A REPLICATE that is answered `+OK` has been logged. -/
theorem safe_forwardToReplica (r : NodeId) {k : Nat} (hk : 1 ≤ k) (op : Op) {l : Place} (σ : St) :
    (logic sort).Safe i l (Manager.forwardToReplica r k op)
      (fun ok σ => ok = true → logged σ.1.2.logs k op r = true) σ := by
  have hok : ∀ o (σ : St), (∀ rep, o = .reply rep → Acked σ.1.2.logs (.replicate r k op) rep) →
      ∀ σ' : St, σ.1.2.logs ⊆ σ'.1.2.logs → Manager.isOk o = true → logged σ'.1.2.logs k op r = true := by
    intro o σ hrep σ' hlogs ho
    unfold Manager.isOk at ho
    split at ho
    · rcases hrep _ rfl with h0 | hl
      · omega
      · exact logged_mono hlogs hl
    · exact absurd ho (by simp)
  refine ⟨fun _ _ _ _ _ => trivial, ?_⟩
  intro o σ₁ _ _ hrep
  cases o with
  | sendFailed =>
      refine ⟨fun _ _ _ _ _ => trivial, ?_⟩
      intro o σ₂ _ _ hrep σ₃ hr₃ _
      exact hok o σ₂ hrep σ₃ hr₃.1
  | refused => exact fun σ₂ hr₂ _ => hok .refused σ₁ nofun σ₂ hr₂.1
  | noReply => exact fun σ₂ hr₂ _ => hok .noReply σ₁ nofun σ₂ hr₂.1
  | reply rep => exact fun σ₂ hr₂ _ => hok (.reply rep) σ₁ hrep σ₂ hr₂.1

theorem safe_forwardRepairing (self r : NodeId) {k : Nat} (hk : 1 ≤ k) (op : Op) {l : Place}
    {σ : St} (hi : Inv σ) :
    (logic sort).Safe i l (Manager.forwardRepairing self r k op)
      (fun ok σ => ok = true → logged σ.1.2.logs k op r = true) σ := by
  refine Logic.Safe.bind ((safe_forwardToReplica sort r hk op σ).weaken ?_) hi
  intro ok σ₁ hi₁ hok _
  split
  · rename_i htrue
    exact fun σ₂ hr _ _ => logged_mono hr.1 (hok htrue)
  · -- the repair is a request of its own and proves nothing about the operation
    have hresync := Manager.asks_resyncReplicaFromSelf self r
    refine Logic.Safe.bind ((safe_quiet sort hresync.inner.quiet i l σ₁).weaken ?_) hi₁
    intro repaired σ₂ _ _ _
    split
    · exact safe_forwardToReplica sort r hk op σ₂
    · exact fun σ₃ _ _ h => absurd h (by simp)

/-- Actions that leave the ticket of their thread alone. -/
def Untouched (a : NodeAct) : Prop :=
  ∀ (p : Past) (i : Nat) (n : NodeId) (node : Node) (r : a.Res), (p.note i n node a r).ticket = p.ticket

theorem Holding.exec {a : NodeAct} (ha : Untouched a) {record : Option (Nat × Op)}
    {copied : Option (List NodeId)} {σ σ' : St} {io : Nat} {r : a.Res} (hh : Holding i n record copied σ)
    (he : (watched sort).exec i (.node n) io (.node a) σ = some (r, σ')) :
    Holding i n record copied σ' := by
  obtain ⟨t, ht, hrest⟩ := hh
  obtain ⟨node, -, rfl⟩ := exec_node sort he
  exact ⟨t, (congrFun (ha _ i n node r) i).trans ht, hrest⟩

/-- Such an action at the node of the write. -/
theorem safe_untouched {α : Type} {a : NodeAct} (ha : Untouched a) (hne : a ≠ .answer .ok)
    {f : a.Res → ClusterProg α} {Q : α → St → Prop} {record : Option (Nat × Op)}
    {copied : Option (List NodeId)} {σ : St} (hh : Holding i n record copied σ)
    (hf : ∀ r σ', σ.1.2.logs ⊆ σ'.1.2.logs → Inv σ' → Holding i n record copied σ' →
      (logic sort).Safe i (.node n) (f r) Q σ') :
    (logic sort).Safe i (.node n) (Manager.act a >>= f) Q σ := by
  intro σ₁ io r σ₂ hr hi hok he
  have hc := change_node sort hi hok.1 (fun h => absurd h hne) he
  exact ⟨hc, hf r σ₂ (List.Subset.trans hr.1 hc.step) hc.inv ((hh.rely sort hr).exec sort ha he)⟩

/-- Every acknowledgement counted is of a replica that has logged the operation. -/
theorem safe_forwardEach (self : NodeId) {k : Nat} (hk : 1 ≤ k) (op : Op) {record : Option (Nat × Op)}
    {copied : Option (List NodeId)} (done : List NodeId) (ps : List ReplicaPtr) (acked : Nat) {σ : St}
    (hh : Holding i n record copied σ) (hacked : acked ≤ done.countP (logged σ.1.2.logs k op)) :
    (logic sort).Safe i (.node n) (Manager.forwardEach self k op ps acked)
      (fun m σ => Holding i n record copied σ
        ∧ m ≤ (done ++ ps.map ReplicaPtr.id).countP (logged σ.1.2.logs k op)) σ := by
  induction ps generalizing done acked σ with
  | nil =>
      intro σ₁ hr _
      rw [List.map_nil, List.append_nil]
      exact ⟨hh.rely sort hr, Nat.le_trans hacked (countP_logged_mono hr.1 k op done)⟩
  | cons ptr ps ih =>
      have hdone : ∀ σ σ', (logic sort).Rely i (.node n) σ σ' →
          (Holding i n record copied σ ∧ acked ≤ done.countP (logged σ.1.2.logs k op)) →
          Holding i n record copied σ' ∧ acked ≤ done.countP (logged σ'.1.2.logs k op) :=
        fun σ σ' hr h => ⟨h.1.rely sort hr, Nat.le_trans h.2 (countP_logged_mono hr.1 k op done)⟩
      refine Logic.Safe.perform (L := logic sort) ?_
      intro σ₁ io (r : NodeId) σ₂ hr hi hok he
      have hc := change_node sort (a := .readReplica ptr) hi hok.1 (by simp) he
      -- the entry is still there and says whom it stands for
      have hid : r = ptr.id := by
        obtain ⟨node, hn, -⟩ := exec_node sort he
        have hmade : ptr.made = (σ₁.1.1.node n).cleared := hok.1
        exact (Prod.mk.inj (Option.some.inj hn)).1.symm.trans (if_pos hmade)
      have hh₂ := (hh.rely sort hr).exec sort (a := .readReplica ptr) (fun _ _ _ _ _ => rfl) he
      have hacked₂ := Nat.le_trans hacked (countP_logged_mono (List.Subset.trans hr.1 hc.step) k op done)
      refine ⟨hc, Logic.Safe.bind (L := logic sort) (((safe_forwardRepairing sort self r hk op hc.inv).keep
        (Manager.asks_forwardRepairing self r k op) (fun hr h => hdone _ _ hr h) (fun h => h.elim)
        ⟨hh₂, hacked₂⟩).weaken ?_) hc.inv⟩
      rintro ok σ₃ - ⟨⟨hh₃, hacked₃⟩, hacks⟩ -
      refine safe_untouched sort (fun _ _ _ _ _ => rfl) (by simp) hh₃ ?_
      intro _ σ₄ hlogs _ hh₄
      have hcount := countP_logged_mono hlogs k op done
      rw [List.map_cons, List.append_cons, ← hid]
      refine ih (done ++ [r]) _ hh₄ ?_
      cases ok with
      | true =>
          rw [List.countP_append, List.countP_cons_of_pos (logged_mono hlogs (hacks rfl))]
          simp only [if_true]
          omega
      | false =>
          rw [List.countP_append]
          simp only [Bool.false_eq_true, if_false]
          omega

/-- **A write that `forward_to_all` calls good** has copied a list and the quorum of it. -/
theorem safe_forwardToAll {k : Nat} (hk : 1 ≤ k) {op : Op} {σ : St}
    (hh : Holding i n (some (k, op)) none σ) :
    (logic sort).Safe i (.node n) (Manager.forwardToAll n k op)
      (fun ok σ => ok = true → ∃ rs, Holding i n (some (k, op)) (some rs) σ
        ∧ Manager.requiredRemoteAcks rs.length ≤ rs.countP (logged σ.1.2.logs k op)) σ := by
  refine Logic.Safe.perform (L := logic sort) ?_
  intro σ₁ io (ps : List ReplicaPtr) σ₂ hr hi hok he
  have hc := change_node sort (a := .copyReplicas) hi hok.1 (by simp) he
  refine ⟨hc, ?_⟩
  have hh₂ : Holding i n (some (k, op)) (some (ps.map ReplicaPtr.id)) σ₂ := by
    obtain ⟨t, ht, htn, hrec, hcop⟩ := hh.rely sort hr
    obtain ⟨node, -, rfl⟩ := exec_node sort he
    have hcop : t.copied = none := by simpa using hcop
    refine ⟨{ t with copied := some (ps.map ReplicaPtr.id, σ₁.2.since t) }, ?_, htn, hrec, rfl⟩
    show (Past.copy _ i n (ps.map ReplicaPtr.id)).ticket i = _
    simp [Past.copy, Past.setTicket, ht, htn, hrec, hcop]
  split
  · rename_i hzero
    intro σ₃ hr₃ _ _
    refine ⟨_, hh₂.rely sort hr₃, ?_⟩
    rw [List.length_map, hzero]
    exact Nat.zero_le _
  · refine Logic.Safe.bind (L := logic sort)
      ((safe_forwardEach sort n hk op [] ps 0 hh₂ (Nat.zero_le _)).weaken ?_) hc.inv
    rintro m σ₃ - ⟨hh₃, hm⟩ - σ₄ hr₄ - hq
    refine ⟨_, hh₃.rely sort hr₄, ?_⟩
    rw [List.length_map]
    exact Nat.le_trans (Nat.le_trans (of_decide_eq_true hq) hm) (countP_logged_mono hr₄.1 k op _)

/-- What a write that is about to return OK has to show. -/
def Shows (i : Nat) (n : NodeId) (σ : St) : Prop :=
  Holding i n none none σ ∨ ∃ k op rs, Holding i n (some (k, op)) (some rs) σ
    ∧ logged σ.1.2.logs k op n = true
    ∧ Manager.requiredRemoteAcks rs.length ≤ rs.countP (logged σ.1.2.logs k op)

theorem Shows.rely {σ σ' : St} (h : Shows i n σ) (hr : (logic sort).Rely i (.node n) σ σ') :
    Shows i n σ' := by
  rcases h with h | ⟨k, op, rs, hh, hself, hq⟩
  · exact .inl (h.rely sort hr)
  · exact .inr ⟨k, op, rs, hh.rely sort hr, logged_mono hr.1 hself,
      Nat.le_trans hq (countP_logged_mono hr.1 k op rs)⟩

theorem Shows.honest {σ : St} (h : Shows i n σ) (hi : Inv σ) {t : Ticket}
    (ht : σ.2.ticket i = some t) : Honest σ.1.2.logs ⟨t, (σ.1.1.node n).isPrimary, σ.2.since t⟩ := by
  rcases h with ⟨t', ht', -, hrec, hcop⟩ | ⟨k, op, rs, ⟨t', ht', htn, hrec, hcop⟩, hself, hq⟩
  · obtain rfl := Option.some.inj (ht.symm.trans ht')
    have hcop : t.copied = none := by simpa using hcop
    exact ⟨fun _ _ h => absurd (hrec.symm.trans h) nofun, fun _ h => absurd (hcop.symm.trans h) nofun⟩
  · obtain rfl := Option.some.inj (ht.symm.trans ht')
    obtain ⟨⟨rs', since⟩, hcop', rfl⟩ := Option.map_eq_some_iff.mp hcop
    obtain ⟨hgood, hempty⟩ := hi.backed i t ht rs' since hcop'
    refine ⟨?_, ?_⟩
    · intro k' op' hrec' hseen
      obtain ⟨rfl, rfl⟩ := Prod.mk.inj (Option.some.inj (hrec.symm.trans hrec'))
      rcases hgood with hg | hp
      · subst htn
        exact .inl (majority_of_good hg hseen hself hq)
      · subst htn
        exact .inr hp
    · intro since' h
      obtain ⟨rfl, rfl⟩ := Prod.mk.inj (Option.some.inj (hcop'.symm.trans h))
      exact hempty rfl

theorem safe_finish_ok {σ : St} (h : Shows i n σ) :
    (logic sort).Safe i (.node n) (Manager.finish .ok) (fun _ _ => True) σ := by
  refine Logic.Safe.perform (L := logic sort) ?_
  intro σ₁ io r σ₂ hr hi hok he
  have hc := change_node sort (a := .answer .ok) hi hok.1 (fun _ _ ht => (h.rely sort hr).honest hi ht) he
  exact ⟨hc, fun _ _ _ => trivial⟩

theorem safe_finish {status : KVPutStatus} (h : status ≠ .ok) (σ : St) :
    (logic sort).Safe i (.node n) (Manager.finish status) (fun _ _ => True) σ :=
  safe_quiet sort (Manager.local_finish h).quiet i _ σ

/-- The opening of a client write. -/
theorem safe_opening {row col : Field} {body : Option Field → ClusterProg KVPutStatus}
    (hb : ∀ old σ, Inv σ → Holding i n none none σ →
      (logic sort).Safe i (.node n) (body old) (fun _ _ => True) σ) (σ : St) :
    (logic sort).Safe i (.node n) (Manager.opening row col body) (fun _ _ => True) σ := by
  refine Logic.Safe.perform (L := logic sort) ?_
  intro σ₁ io (passed : Bool) σ₂ hr hi hok he
  have hc := change_node sort (a := .isPrimary) hi hok.1 (by simp) he
  refine ⟨hc, ?_⟩
  cases passed with
  | false => exact fun _ _ _ => trivial
  | true =>
      have hh : Holding i n none none σ₂ := by
        obtain ⟨node, -, rfl⟩ := exec_node sort he
        exact ⟨_, Function.update_self .., rfl, rfl, rfl⟩
      refine safe_untouched sort (a := .lockWrite) (fun _ _ _ _ _ => rfl) (by simp) hh ?_
      intro _ σ₃ _ _ hh₃
      refine safe_untouched sort (a := .get row col) (fun _ _ _ _ _ => rfl) (by simp) hh₃ ?_
      intro old σ₄ _ hi₄ hh₄
      exact hb old σ₄ hi₄ hh₄

/-- What a write has once its operation is logged and on its ticket. -/
structure Logging (i : Nat) (n : NodeId) (k : Nat) (op : Op) (σ : St) : Prop where
  pos : 1 ≤ k
  holding : Holding i n (some (k, op)) none σ
  self : logged σ.1.2.logs k op n = true

/-- The end of a client write. -/
theorem safe_closing {k : Nat} {op : Op} {rollback : ClusterProg Unit} (hq : Inner rollback)
    {σ : St} (hi : Inv σ) (hh : Logging i n k op σ) :
    (logic sort).Safe i (.node n) (Manager.closing n k op rollback) (fun _ _ => True) σ := by
  refine Logic.Safe.bind (L := logic sort) (((safe_forwardToAll sort hh.pos hh.holding).persist
    (R := fun σ : St => logged σ.1.2.logs k op n = true) (fun hs h => logged_mono hs h) hh.self).weaken ?_) hi
  rintro ok σ₁ hi₁ ⟨hself₁, hok⟩ -
  split
  · rename_i htrue
    obtain ⟨rs, hh₁, hq₁⟩ := hok htrue
    exact safe_finish_ok sort (.inr ⟨k, op, rs, hh₁, hself₁, hq₁⟩)
  · refine Logic.Safe.bind (L := logic sort) ((safe_quiet sort hq.quiet i _ σ₁).weaken ?_) hi₁
    rintro _ σ₂ - - -
    exact safe_finish sort (by simp) σ₂

/-- An action that has logged an operation and put it on the ticket. -/
theorem logging_of_exec {σ σ' : St} {io k : Nat} {op : Op} {a : NodeAct} {r : a.Res}
    (hh : Holding i n none none σ)
    (he : (watched sort).exec i (.node n) io (.node a) σ = some (r, σ'))
    (hnote : ∀ node, σ.2.note i n node a r = σ.2.record i k op)
    (hlog : ∀ node, (σ.1.1.node n).exec i io a = some (r, node) →
      k = (σ.1.1.node n).tablet.lsn + 1 ∧ node.tablet.log = (σ.1.1.node n).tablet.log ++ [some op]) :
    Logging i n k op σ' := by
  have hlogs := logs_exec sort he
  obtain ⟨t, ht, htn, hrec, hcop⟩ := hh
  obtain ⟨node, hn, rfl⟩ := exec_node sort he
  obtain ⟨rfl, hnew⟩ := hlog node hn
  refine ⟨by omega, ⟨{ t with record := some ((σ.1.1.node n).tablet.lsn + 1, op) }, ?_, htn, rfl, hcop⟩, ?_⟩
  · rw [hnote]
    simp [Past.record, Past.setTicket, ht, hrec]
  · rw [hlogs]
    refine List.any_eq_true.mpr ⟨_, List.mem_cons_self, decide_eq_true ⟨rfl, ?_⟩⟩
    rw [World.log_setNode_self, hnew]
    exact opAt_append_last _ _

/-- **`put`.** -/
theorem safe_put {row col val : Field} {σ : St} (hh : Holding i n none none σ) :
    (logic sort).Safe i (.node n) (Manager.put row col val)
      (fun lsn σ => ∀ k, lsn = some k → Logging i n k (.put row col val) σ) σ := by
  refine safe_untouched sort (a := .lockWal) (fun _ _ _ _ _ => rfl) (by simp) hh ?_
  intro _ σ₁ _ _ hh₁
  refine Logic.Safe.perform (L := logic sort) ?_
  intro σ₂ io (lsn : Option Nat) σ₃ hr hi hok he
  have hc := change_node sort (a := .logOp (.put row col val)) hi hok.1 (by simp) he
  refine ⟨hc, ?_⟩
  cases lsn with
  | none =>
      refine Logic.Safe.perform (L := logic sort) ?_
      intro σ₄ io₄ r₄ σ₅ _ hi₄ hok₄ he₄
      exact ⟨change_node sort (a := .unlockWal) hi₄ hok₄.1 (by simp) he₄, fun _ _ _ => nofun⟩
  | some k =>
      have hlog : Logging i n k (.put row col val) σ₃ := by
        refine logging_of_exec sort (a := .logOp (.put row col val)) (hh₁.rely sort hr) he (fun _ => rfl) ?_
        intro node hn
        obtain ⟨hk, rfl⟩ := Prod.mk.inj (Option.some.inj hn)
        exact Replica.logOp_log hk
      refine safe_untouched sort (a := .applyRow _ false) (fun _ _ _ _ _ => rfl) (by simp) hlog.holding ?_
      intro _ σ₄ hlogs₄ _ hh₄
      refine safe_untouched sort (a := .unlockWal) (fun _ _ _ _ _ => rfl) (by simp) hh₄ ?_
      intro _ σ₅ hlogs₅ _ hh₅ σ₆ hr₆ _ k' hk
      obtain rfl := Option.some.inj hk
      have hlogs₆ := List.Subset.trans (List.Subset.trans hlogs₄ hlogs₅) hr₆.1
      exact ⟨hlog.pos, hh₅.rely sort hr₆, logged_mono hlogs₆ hlog.self⟩

/-- **A client write is safe.** -/
theorem safe_client (i : Nat) (n : NodeId) (cw : ClientWrite) (σ : St) :
    (logic sort).Safe i (.node n) (cw.prog n) (fun _ _ => True) σ := by
  cases cw with
  | put row col val =>
      refine safe_opening sort (fun old σ hi hh => ?_) σ
      refine Logic.Safe.bind (L := logic sort) ((safe_put sort hh).weaken ?_) hi
      intro (lsn : Option Nat) σ₁ hi₁ hput _
      cases lsn with
      | none => exact safe_finish sort (by simp) σ₁
      | some k => exact safe_closing sort (Manager.inner_rollbackPut n row col old) hi₁ (hput k rfl)
  | cput row col v1 v2 =>
      refine safe_opening sort (fun old σ _ hh => ?_) σ
      split
      · exact safe_finish sort (by simp) σ
      · refine Logic.Safe.perform (L := logic sort) ?_
        intro σ₁ io (lsn : Option Nat) σ₂ hr hi hok he
        have hc := change_node sort (a := .cput row col v1 v2) hi hok.1 (by simp) he
        refine ⟨hc, ?_⟩
        cases lsn with
        | none => exact safe_finish sort (by simp) σ₂
        | some k =>
            refine safe_closing sort (Manager.inner_restore n row col v1) hc.inv ?_
            refine logging_of_exec sort (hh.rely sort hr) he (fun _ => rfl) ?_
            intro node hn
            obtain ⟨-, hn⟩ := Option.ite_none_right_eq_some.mp hn
            obtain ⟨hk, rfl⟩ := Prod.mk.inj (Option.some.inj hn)
            exact Replica.cput_log hk
  | delete row col =>
      refine safe_opening sort (fun old σ _ hh => ?_) σ
      refine Logic.Safe.perform (L := logic sort) ?_
      intro σ₁ io (lsn : Option (Option Nat)) σ₂ hr hi hok he
      have hc := change_node sort (a := .del row col) hi hok.1 (by simp) he
      refine ⟨hc, ?_⟩
      rcases lsn with _ | _ | k
      · exact safe_finish sort (by simp) _
      · -- nothing was logged and the list does not matter
        obtain ⟨node, -, rfl⟩ := exec_node sort he
        obtain ⟨t, ht⟩ := hh.rely sort hr
        exact safe_finish_ok sort (.inl ⟨t, ht⟩)
      · refine safe_closing sort (Manager.inner_rollbackDelete n row col old) hc.inv ?_
        refine logging_of_exec sort (hh.rely sort hr) he (fun _ => rfl) ?_
        intro node hn
        obtain ⟨-, hn⟩ := Option.ite_none_right_eq_some.mp hn
        obtain ⟨hk, rfl⟩ := Prod.mk.inj (Option.some.inj hn)
        exact Replica.del_log hk

/-- REPLICATE: the acknowledgement is the last step. -/
theorem safe_onReplicate (j : Nat) (n : NodeId) (k : Nat) (op : Op) {σ : St} (hi : Inv σ) :
    (logic sort).Safe j (.node n) (Manager.onReplicate k op)
      (fun r σ => Acked σ.1.2.logs (.replicate n k op) r) σ := by
  refine Logic.Safe.bind (L := logic sort)
    ((safe_quiet sort (Manager.local_applyReplicate k op).quiet j _ σ).weaken ?_) hi
  rintro ok σ₁ - - -
  split
  · refine Logic.Safe.perform (L := logic sort) ?_
    intro σ₂ io r σ₃ _ hi₂ hok he
    have hc := change_node sort (a := .ack k op) hi₂ hok.1 (by simp) he
    refine ⟨hc, ?_⟩
    intro σ₄ hr₄ _
    have hlog : k = 0 ∨ logged ((n, σ₂.1.1.log n) :: σ₂.1.2.logs) k op n = true := hok.2
    have hsame : σ₃.1.2.logs = (n, σ₂.1.1.log n) :: σ₂.1.2.logs := by
      rw [logs_exec sort he]
      obtain ⟨node, hn, rfl⟩ := exec_node sort he
      obtain ⟨-, rfl⟩ := Prod.mk.inj (Option.some.inj hn)
      rw [World.setNode_eq_self]
    rw [← hsame] at hlog
    exact hlog.imp id (fun hl => logged_mono hr₄.1 hl)
  · exact fun _ _ _ => trivial

/-- **Every handler is safe.** -/
theorem safe_handler (j : Nat) (c : Call) {σ : St} (hi : Inv σ) :
    (logic sort).Safe j (.node c.target) (Manager.handler c) (fun r σ => Acked σ.1.2.logs c r) σ := by
  cases c with
  | replicate n k op => exact safe_onReplicate sort j n k op hi
  | becomePrimary n =>
      have hp : Manager.onBecomePrimary.Only (fun a => a ≠ Act.node (.answer .ok)) (fun _ => True) :=
        ⟨nofun, fun _ => ⟨nofun, fun _ => trivial⟩⟩
      exact (safe_of_not_ok sort hp j _ σ).weaken (fun _ _ _ _ => trivial)
  | _ =>
      exact (safe_quiet sort (Manager.quiet_handler (by simp)) j _ σ).weaken (fun _ _ _ _ => trivial)

/-! ## All together -/

/-- The conditions on a run: those of this module, and those under which logs agree. -/
def Ok (i : Nat) (l : Place) (io : Nat) (a : Act) (σ : St) : Prop :=
  Keeps i l io a σ ∧ Agreement.Mode.anyone.Ok i l io a σ.1

/-- And on a restart. -/
def Returns (l : Place) (σ : St) : Prop := Agreement.Mode.anyone.Returns l σ.1

/-- What agreement says of such a run. -/
theorem agreement_of_reach {w : World} {log : Log} (hw : Agreement.Copies w log)
    {c : Config (watched sort)} (h : Reach ((w, .init log), Past.init) (Within Ok Returns) c) :
    Agreement.Inv .anyone c.st.1 := by
  refine Logic.sound_observe (L := Agreement.logic sort .anyone) (observer sort) ?_
    (fun r i _ hi => Agreement.safe_main sort r i hi) (fun j c _ hi hc => Agreement.safe_handler sort j c hi hc)
    (h.mono (Within.mono (fun _ _ _ _ _ hok => hok.2) (fun _ _ hup => hup)))
  exact hw.inv nofun

/-- **So REPLICATE is acknowledged by nodes that have logged it.** -/
theorem logged_of_agreement (i io : Nat) {l : Place} {a : Act} {σ : St}
    (h : ∀ r σ', (watched sort).exec i l io a σ = some (r, σ') → Agreement.Inv .anyone σ'.1) :
    Logged l a σ := by
  unfold Logged
  split
  · rename_i n k op
    obtain ⟨⟨r, σ'⟩, he⟩ := Option.isSome_iff_exists.mp
      (rfl : ((watched sort).exec i (.node n) io (.node (.ack k op)) σ).isSome = true)
    have hinv := h r σ' he
    obtain ⟨node, hn, rfl⟩ := exec_node sort he
    obtain ⟨-, rfl⟩ := Prod.mk.inj (Option.some.inj hn)
    rcases hinv.acks _ List.mem_cons_self with ⟨-, h0⟩ | ⟨-, hheld⟩
    · exact .inl h0
    · exact .inr hheld
  · trivial

/--
**Writes answered OK are honest.**

In every run whose steps meet the condition, from any state of the nodes whose logs
begin one log, every write that was answered OK can show its majority.
-/
theorem honest_of_reach {w : World} {log : Log} (hw : Agreement.Copies w log) {c : Config (watched sort)}
    (h : Reach ((w, .init log), Past.init) (Within Ok Returns) c) :
    ∀ a ∈ c.st.2.answers, Honest c.st.1.2.logs a := by
  have h0 : Inv ((w, .init log), Past.init) := ⟨nofun, nofun, nofun⟩
  have hr : Reach ((w, .init log), Past.init) (Within (logic sort).Ok (logic sort).Up) c := by
    refine (h.keep (fun c hc => agreement_of_reach sort hw hc)).mono ?_
    rintro c m ⟨⟨hwhen, -⟩, hinv⟩
    refine ⟨?_, fun _ _ => trivial⟩
    cases m with
    | act i io =>
        intro l call a k hi
        refine ⟨(hwhen l call a k hi).1, logged_of_agreement sort i io (fun r σ' he => ?_)⟩
        refine hinv { c.setThread i (some ⟨l, call, k r, none⟩) with st := σ' } ?_
        simp only [step, hi, he, Option.map_some]
    | _ => trivial
  refine (Logic.sound_within (L := logic sort) h0 ?_ (fun j c σ hi _ => safe_handler sort j c hi) hr).inv.honest
  intro r i σ hi
  cases r with
  | client n cw =>
      exact Logic.Safe.bind (L := logic sort) ((safe_client sort i n cw σ).weaken
        (fun _ _ _ _ _ _ _ _ => trivial)) hi
  | checkpoint n =>
      have hq : Quiet (Root.main sort (.checkpoint n)) := Manager.local_checkpoint.quiet.bind (fun _ => trivial)
      exact safe_quiet sort hq i _ σ
  | heartbeat => exact safe_quiet sort (quiet_lift _) i _ σ
  | lookup =>
      have hq : Quiet (Root.main sort .lookup) := (quiet_lift _).bind (fun _ => trivial)
      exact safe_quiet sort hq i _ σ

/-! ## A write overtaken by a demotion -/

section Trio

open Trio

/-- The condition, tested. A demotion is taken to break it. -/
def keepsTest (i : Nat) (l : Place) (_ : Nat) (a : Act) (σ : St) : Bool :=
  match l, a with
  | .node n, .node .copyReplicas => (σ.2.ticket i).all (fun t => decide
      ((Good t.seen (σ.1.1.node n).replicas ∨ ((σ.1.1.node n).isPrimary = true ∧ true ∈ σ.2.since t))
        ∧ ((σ.1.1.node n).replicas = [] → (σ.2.since t).head? ≠ some false)))
  | .node _, .node (.setPrimary false) => false
  | .node n, .node (.readReplica r) => decide (r.made = (σ.1.1.node n).cleared)
  | .node n, .node (.setReplicaAlive r _ _) => decide (r.made = (σ.1.1.node n).cleared)
  | _, _ => true

theorem keeps_of_test (i : Nat) (l : Place) (io : Nat) (a : Act) (σ : St)
    (h : keepsTest i l io a σ = true) : Keeps i l io a σ := by
  unfold keepsTest at h
  split at h
  · intro t ht _ _ _
    rw [ht] at h
    exact of_decide_eq_true h
  · exact absurd h (by simp)
  · have h := of_decide_eq_true h
    exact h
  · have h := of_decide_eq_true h
    exact h
  · rename_i h₁ h₂ h₃ h₄
    unfold Keeps
    split
    · exact absurd rfl (h₁ _ rfl)
    · exact absurd rfl (h₂ _ rfl)
    · exact absurd rfl (h₃ _ _ rfl)
    · exact absurd rfl (h₄ _ _ _ _ rfl)
    · trivial

/-- Both conditions, tested. -/
def okTest (i : Nat) (l : Place) (io : Nat) (a : Act) (σ : St) : Bool :=
  keepsTest i l io a σ && Agreement.Mode.anyone.okTest i l io a σ.1

theorem ok_of_test (i : Nat) (l : Place) (io : Nat) (a : Act) (σ : St) (h : okTest i l io a σ = true) :
    Ok i l io a σ := by
  obtain ⟨hkeeps, hagree⟩ := (Bool.and_eq_true _ _).mp h
  exact ⟨keeps_of_test i l io a σ hkeeps, Agreement.Mode.ok_of_test .anyone i l io a σ.1 hagree⟩

theorem returns_of_test (l : Place) (σ : St) (h : Agreement.Mode.anyone.returnsTest l σ.1 = true) :
    Returns l σ :=
  Agreement.Mode.returns_of_test .anyone l σ.1 h

/-- Two clients write at once, one waiting for the other, and `b` does not answer. -/
def twoPuts : List (Line (watched Trio.sort)) :=
  [.move (.start (.client a (.put x x y))), .move (.start (.client a (.put x x x))),
   .drive up 9 0, .move (.act 1 1), .move (.refuse 0), .drive (down b) 100 0,
   .drive (down b) 100 1]

theorem honest_of_reach_twoPuts : ∃ c : Config (watched Trio.sort),
    c.st.2.answers.length = 2 ∧ ∀ a ∈ c.st.2.answers, Honest c.st.1.2.logs a := by
  obtain ⟨c, hr, hc⟩ := reach_of_play (within_of_test ok_of_test returns_of_test)
    ((Trio.world, .init []), Past.init) twoPuts (fun σ => decide (σ.2.answers.length = 2)) (by decide +kernel)
  exact ⟨c, of_decide_eq_true hc, honest_of_reach Trio.sort Agreement.copies_world hr⟩

/-- The coordinator misses `a` three times, makes `b` primary, hears of `a` again and
demotes it; a write at `a` that had passed its test before then finds an empty list. -/
def overtaken : List (Line (watched Trio.sort)) :=
  [.move (.start (.client a (.put x x y))), .drive up 1 0,
   .move (.start .heartbeat), .drive (down a) 100 1,
   .move (.start .heartbeat), .drive (down a) 100 4,
   .move (.start .heartbeat), .drive (down a) 100 7,
   .move (.start .heartbeat), .drive up 100 18,
   .drive up 100 0]

/-- **The write is answered OK on the strength of the empty list.** -/
theorem not_honest_overtaken : ¬ ∀ c : Config (watched Trio.sort),
    Reach ((Trio.world, .init []), Past.init) Always c →
      ∀ a ∈ c.st.2.answers, Honest c.st.1.2.logs a := by
  intro h
  obtain ⟨c, hr, hc⟩ := reach_always_of_play ((Trio.world, .init []), Past.init) overtaken
    (fun σ => σ.2.answers.any (fun t => decide (t.ticket.record = some (1, .put x x y)
      ∧ t.ticket.node :: t.ticket.seen = [a, b, Trio.c] ∧ t.isPrimary = false
      ∧ [a, b, Trio.c].countP (logged σ.1.2.logs 1 (.put x x y)) = 1))) (by decide +kernel)
  obtain ⟨t, ht, hbad⟩ := List.any_eq_true.mp hc
  obtain ⟨hrec, hlist, hprim, hcount⟩ := of_decide_eq_true hbad
  have hseen : t.ticket.seen ≠ [] := by
    intro hnil
    rw [hnil] at hlist
    exact absurd hlist (by simp)
  rcases (h c hr t ht).quorum 1 _ hrec hseen with hq | hq
  · rw [hlist, hcount] at hq
    exact absurd hq (by decide)
  · rw [hprim] at hq
    exact absurd hq.1 (by simp)

end Trio

end NCloud.Quorum
