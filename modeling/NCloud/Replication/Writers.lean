import NCloud.Replication.Cluster

/-!
# One writer after a failover

`handle_node_failure` makes a node primary and then stores it as `node_ids[0]`.
Nothing on the way tells the old primary, and REPLICATE is accepted whatever the role
of its receiver, so an old primary that was only slow goes on answering OK.

The history has the winner of the last failover, the group it won and the nodes the
coordinator has promoted since; the BECOME_PRIMARY requests that have not taken effect;
and the client writes past their test. There is one writer as long as a winner is
stored only once everybody else has stopped (`Alone`).
-/

namespace NCloud.Writers

open Process Wire

/-! ## The history -/

/-- The outcome of a failover. -/
structure Failover where
  winner : NodeId
  /-- `node_ids`. -/
  group : List NodeId
  /-- Nodes that the coordinator has sent BECOME_PRIMARY since. -/
  since : List NodeId

/-- What the observer remembers. -/
structure Past where
  failover : Option Failover
  /-- BECOME_PRIMARY requests that may still take effect. -/
  promoting : List (Nat × NodeId)
  /-- Client writes past their test. -/
  writing : List (Nat × NodeId)
  /-- Where a client write was answered OK, and the failover it came after. -/
  answers : List (NodeId × Option Failover)

namespace Past

/-- Nothing has happened. -/
def init : Past :=
  { failover := none, promoting := [], writing := [], answers := [] }

/-- Thread `i` is done with its client write. -/
def answer (p : Past) (i : Nat) (n : NodeId) (status : KVPutStatus) : Past :=
  { p with
    writing := p.writing.filter (fun e => e.1 ≠ i)
    answers := if status = .ok then (n, p.failover) :: p.answers else p.answers }

/-- Thread `i` has done an action at a node. -/
def note (p : Past) (i : Nat) (n : NodeId) : (a : NodeAct) → a.Res → Past
  | .isPrimary, (true : Bool) => { p with writing := (i, n) :: p.writing }
  | .answer status, _ => p.answer i n status
  | .setPrimary true, _ => { p with promoting := p.promoting.filter (fun e => e.1 ≠ i) }
  | _, _ => p

/-- The coordinator has done an action. Only the end of an election counts. -/
def noteCoord (p : Past) (c : Coord) : CoordAct → Past
  | .storeWinner id =>
      if (c.find id).isSome ∧ id ∈ c.nodeIds then { p with failover := some ⟨id, c.nodeIds, []⟩ } else p
  | _ => p

/-- A request is sent. -/
def send (p : Past) (j : Nat) : Call → Past
  | .becomePrimary n =>
      { p with
        failover := p.failover.map (fun f => { f with since := n :: f.since })
        promoting := (j, n) :: p.promoting }
  | _ => p

/-- A request is lost. -/
def lose (p : Past) (j : Nat) : Past := { p with promoting := p.promoting.filter (fun e => e.1 ≠ j) }

/-- A place has restarted. -/
def restart (p : Past) (l : Place) : Past :=
  { p with
    promoting := p.promoting.filter (fun e => .node e.2 ≠ l)
    writing := p.writing.filter (fun e => .node e.2 ≠ l) }

end Past

variable (sort : List CoordProg.Candidate → List CoordProg.Candidate)

/-- The observer. -/
def observer : Observer (cluster sort) where
  Past := Past
  note := fun i l a r w _ p =>
    match l, a, r with
    | .node n, .node a, r => p.note i n a r
    | .coord, .coord a, _ => p.noteCoord w.coord a
    | _, _, _ => p
  sent := fun j c _ p => p.send j c
  lost := fun j p => p.lose j
  restart := fun l p => p.restart l

/-- The cluster with its history. -/
abbrev watched : System clusterSig := (cluster sort).observe (observer sort)

/-! ## One writer -/

/-- A write answered OK after a failover was at the winner, or at a node the
coordinator has promoted since. -/
def SingleWriter (p : Past) : Prop :=
  ∀ n f, (n, some f) ∈ p.answers → n ∈ f.group → n = f.winner ∨ n ∈ f.since

/-- The node is out of the way: it is not primary, none of its client writes is past
the test, and no BECOME_PRIMARY is on its way to it. -/
structure Idle (w : World) (p : Past) (n : NodeId) : Prop where
  secondary : (w.node n).isPrimary = false
  writing : ∀ e ∈ p.writing, e.2 ≠ n
  promoting : ∀ e ∈ p.promoting, e.2 ≠ n

instance (w : World) (p : Past) (n : NodeId) : Decidable (Idle w p n) :=
  decidable_of_iff ((w.node n).isPrimary = false ∧ (∀ e ∈ p.writing, e.2 ≠ n) ∧ ∀ e ∈ p.promoting, e.2 ≠ n)
    ⟨fun h => ⟨h.1, h.2.1, h.2.2⟩, fun h => ⟨h.secondary, h.writing, h.promoting⟩⟩

/-- The condition on a step: a winner is stored once all others are out of the way. -/
def Alone (_ : Nat) (l : Place) (_ : Nat) (a : Act) (σ : World × Past) : Prop :=
  match l, a with
  | .coord, .coord (.storeWinner id) => (σ.1.coord.find id).isSome → id ∈ σ.1.coord.nodeIds →
      ∀ m ∈ σ.1.coord.nodeIds, m ≠ id → Idle σ.1 σ.2 m
  | _, _ => True

/-- The invariant. -/
structure Inv (σ : World × Past) : Prop where
  idle : ∀ f, σ.2.failover = some f → ∀ m ∈ f.group, m ≠ f.winner → m ∉ f.since → Idle σ.1 σ.2 m
  single : SingleWriter σ.2

/-- What a BECOME_PRIMARY on its way is good for. -/
def Pending (p : Past) (j : Nat) : Call → Prop
  | .becomePrimary n => (j, n) ∈ p.promoting
  | _ => True

/-- What others leave alone. -/
def Rely (i : Nat) (l : Place) (σ σ' : World × Past) : Prop :=
  ∀ n, l = .node n → ((i, n) ∈ σ.2.writing → (i, n) ∈ σ'.2.writing)
    ∧ ((i, n) ∈ σ.2.promoting → (i, n) ∈ σ'.2.promoting)

variable {w : World} {p : Past} {i : Nat} {n : NodeId}

theorem Inv.send (h : Inv (w, p)) (j : Nat) (c : Call) : Inv (w, p.send j c) := by
  cases c with
  | becomePrimary m =>
      refine ⟨?_, h.single⟩
      intro f hf q hq hne hns
      obtain ⟨f₀, hf₀, rfl⟩ := Option.map_eq_some_iff.mp hf
      have hqm : q ≠ m := fun hqm => hns (hqm ▸ List.mem_cons_self)
      have hidle := h.idle f₀ hf₀ q hq hne (fun hmem => hns (List.mem_cons_of_mem _ hmem))
      refine ⟨hidle.secondary, hidle.writing, ?_⟩
      intro e he
      rcases List.mem_cons.mp he with rfl | he
      · exact Ne.symm hqm
      · exact hidle.promoting e he
  | _ => exact h

theorem Inv.lose (h : Inv (w, p)) (j : Nat) : Inv (w, p.lose j) := by
  refine ⟨?_, h.single⟩
  intro f hf q hq hne hns
  have hidle := h.idle f hf q hq hne hns
  exact ⟨hidle.secondary, hidle.writing, fun e he => hidle.promoting e (List.mem_of_mem_filter he)⟩

theorem Inv.restart (h : Inv (w, p)) (l : Place) : Inv (w.restart l, p.restart l) := by
  refine ⟨?_, h.single⟩
  intro f hf q hq hne hns
  have hidle := h.idle f hf q hq hne hns
  refine ⟨?_, fun e he => hidle.writing e (List.mem_of_mem_filter he),
    fun e he => hidle.promoting e (List.mem_of_mem_filter he)⟩
  cases l with
  | coord => exact hidle.secondary
  | node n =>
      by_cases hn : q = n
      · subst hn
        show ((w.setNode q _).node q).isPrimary = false
        rw [World.setNode_self]
        rfl
      · show ((w.setNode n _).node q).isPrimary = false
        rw [World.setNode_of_ne hn]
        exact hidle.secondary

theorem rely_send (σ : World × Past) (j : Nat) (c : Call) (l : Place) :
    Rely i l σ (σ.1, σ.2.send j c) := by
  cases c with
  | becomePrimary m =>
      exact fun n _ => ⟨id, fun h => List.mem_cons_of_mem _ h⟩
  | _ => exact fun _ _ => ⟨id, id⟩

theorem rely_restart (σ : World × Past) {l l' : Place} (hl : l' ≠ l) :
    Rely i l' σ (σ.1.restart l, σ.2.restart l) := by
  rintro n rfl
  exact ⟨fun h => List.mem_filter.mpr ⟨h, decide_eq_true hl⟩,
    fun h => List.mem_filter.mpr ⟨h, decide_eq_true hl⟩⟩

/-- The logic. -/
def logic : Logic (watched sort) where
  Inv := Inv
  Step := fun _ _ => True
  Rely := Rely
  Ok := Alone
  Req := fun j c σ => Pending σ.2 j c
  Rep := fun _ _ _ => True
  step_refl := fun _ => trivial
  rely_step := fun _ => trivial
  rely_refl := fun _ _ _ _ _ => ⟨id, id⟩
  rely_trans := fun h₁ h₂ n hn => ⟨fun h => (h₂ n hn).1 ((h₁ n hn).1 h), fun h => (h₂ n hn).2 ((h₁ n hn).2 h)⟩
  req_stable := by
    intro j c σ σ' hr hc
    cases c with
    | becomePrimary n => exact (hr n rfl).2 hc
    | _ => trivial
  rep_stable := fun _ _ => trivial
  sent_ok := fun h => ⟨h.send _ _, trivial, fun _ l _ => rely_send _ _ _ l⟩
  lost_ok := fun h => ⟨h.lose _, trivial, fun _ _ hi _ _ =>
    ⟨id, fun h => List.mem_filter.mpr ⟨h, decide_eq_true hi⟩⟩⟩
  restart_ok := fun h _ => ⟨h.restart _, trivial, fun _ _ hl => rely_restart _ hl⟩

/-! ## Actions -/

/-- What an action of a node does. -/
theorem exec_node {σ σ' : World × Past} {io : Nat} {a : NodeAct} {r : a.Res}
    (h : (watched sort).exec i (.node n) io (.node a) σ = some (r, σ')) :
    ∃ node, (σ.1.node n).exec i io a = some (r, node) ∧ σ' = (σ.1.setNode n node, σ.2.note i n a r) := by
  obtain ⟨w', hw, rfl⟩ := System.exec_observe h
  obtain ⟨node, hn, rfl⟩ := World.exec_node hw
  exact ⟨node, hn, rfl⟩

theorem rely_note {σ : World × Past} {i' : Nat} {l : Place} (w' : World) (a : NodeAct) (r : a.Res)
    (hi : i' ≠ i) : Rely i' l σ (w', σ.2.note i n a r) := by
  intro m _
  show (_ → (i', m) ∈ (Past.note σ.2 i n a r).writing) ∧
    (_ → (i', m) ∈ (Past.note σ.2 i n a r).promoting)
  unfold Past.note
  split
  · exact ⟨fun h => List.mem_cons_of_mem _ h, id⟩
  · exact ⟨fun h => List.mem_filter.mpr ⟨h, decide_eq_true hi⟩, id⟩
  · exact ⟨id, fun h => List.mem_filter.mpr ⟨h, decide_eq_true hi⟩⟩
  · exact ⟨id, id⟩

/-- The node changes, and the notes say no more than before about the idle. -/
theorem Inv.node (h : Inv (w, p)) {node : Node} {p' : Past}
    (hf : p'.failover = p.failover) (hs : SingleWriter p')
    (hprim : node.isPrimary = true → (w.node n).isPrimary = true ∨ ∃ j, (j, n) ∈ p.promoting)
    (hw : ∀ e ∈ p'.writing, e ∈ p.writing ∨ (w.node e.2).isPrimary = true)
    (hp : p'.promoting ⊆ p.promoting) : Inv (w.setNode n node, p') := by
  refine ⟨?_, hs⟩
  intro f hf' q hq hne hns
  have hidle := h.idle f (hf ▸ hf') q hq hne hns
  refine ⟨?_, ?_, fun e he => hidle.promoting e (hp he)⟩
  · by_cases hn : q = n
    · subst hn
      show ((w.setNode q node).node q).isPrimary = false
      rw [World.setNode_self]
      -- a promotion that takes effect here was on its way before
      cases hb : node.isPrimary with
      | false => rfl
      | true =>
          rcases hprim hb with hold | ⟨j, hj⟩
          · rw [hidle.secondary] at hold; exact absurd hold (by simp)
          · exact absurd rfl (hidle.promoting (j, q) hj)
    · show ((w.setNode n node).node q).isPrimary = false
      rw [World.setNode_of_ne hn]
      exact hidle.secondary
  · intro e he
    rcases hw e he with hold | hprim
    · exact hidle.writing e hold
    · rintro rfl
      rw [hidle.secondary] at hprim
      exact absurd hprim (by simp)

/-- **An action keeps the invariant.** A write that is answered OK has passed its test,
and a promotion that takes effect was on its way. -/
theorem change_node {σ σ' : World × Past} {io : Nat} {a : NodeAct} {r : a.Res} (h : Inv σ)
    (hans : a = .answer .ok → (i, n) ∈ σ.2.writing)
    (hprom : a = .setPrimary true → (i, n) ∈ σ.2.promoting)
    (he : (watched sort).exec i (.node n) io (.node a) σ = some (r, σ')) :
    (logic sort).Change i σ σ' := by
  obtain ⟨w, p⟩ := σ
  obtain ⟨node, hn, rfl⟩ := exec_node sort he
  refine ⟨?_, trivial, fun i' l hi => rely_note _ a r hi⟩
  have hkeep : (∀ b, a ≠ .setPrimary b) → node.isPrimary = (w.node n).isPrimary :=
    fun hne => Node.exec_isPrimary hne hn
  cases a with
  | isPrimary =>
      have hk := hkeep (by simp)
      obtain ⟨hr, -⟩ := Prod.mk.inj (Option.some.inj hn)
      cases r with
      | false =>
          exact h.node rfl h.single (fun hb => .inl (hk ▸ hb)) (fun _ h => .inl h) (List.Subset.refl _)
      | true =>
          refine h.node rfl h.single (fun hb => .inl (hk ▸ hb)) ?_ (List.Subset.refl _)
          intro e he
          rcases List.mem_cons.mp he with rfl | he
          · exact .inr hr
          · exact .inl he
  | answer status =>
      have hk := hkeep (by simp)
      refine h.node rfl ?_ (fun hb => .inl (hk ▸ hb))
        (fun e he => .inl (List.mem_of_mem_filter he)) (List.Subset.refl _)
      intro m f hmem hgroup
      by_cases hs : status = .ok
      · subst hs
        rcases List.mem_cons.mp hmem with heq | hmem
        · obtain ⟨rfl, hf⟩ := Prod.mk.inj heq
          -- an idle node has no write past its test
          by_contra hcon
          rw [not_or] at hcon
          exact (h.idle f hf.symm m hgroup hcon.1 hcon.2).writing (i, m) (hans rfl) rfl
        · exact h.single m f hmem hgroup
      · have hmem : (m, some f) ∈ p.answers := by simpa [Past.note, Past.answer, hs] using hmem
        exact h.single m f hmem hgroup
  | setPrimary b =>
      obtain ⟨-, rfl⟩ := Prod.mk.inj (Option.some.inj hn)
      cases b with
      | false =>
          exact h.node rfl h.single (fun hb => absurd hb (by simp)) (fun _ h => .inl h) (List.Subset.refl _)
      | true =>
          exact h.node rfl h.single (fun _ => .inr ⟨i, hprom rfl⟩) (fun _ h => .inl h)
            (List.filter_subset_self _)
  | _ =>
      have hk := hkeep (by simp)
      exact h.node rfl h.single (fun hb => .inl (hk ▸ hb)) (fun _ h => .inl h) (List.Subset.refl _)

theorem change_coord {σ σ' : World × Past} {io : Nat} {a : CoordAct} {r : coordSig.Res a} (h : Inv σ)
    (hok : Alone i .coord io (.coord a) σ)
    (he : (watched sort).exec i .coord io (.coord a) σ = some (r, σ')) :
    (logic sort).Change i σ σ' := by
  obtain ⟨w', hw, rfl⟩ := System.exec_observe he
  have hw : World.exec i .coord io (.coord a) σ.1 = some (r, w') := hw
  obtain ⟨rfl, rfl⟩ := World.exec_coord hw
  have hquiet : ∀ p', p' = σ.2 → Inv ({ σ.1 with coord := (σ.1.coord.exec a).2 }, p') := by
    rintro p' rfl
    exact ⟨fun f hf m hm hne hns =>
      have hidle := h.idle f hf m hm hne hns
      ⟨hidle.secondary, hidle.writing, hidle.promoting⟩, h.single⟩
  have hrely : ∀ p' : Past, p'.writing = σ.2.writing → p'.promoting = σ.2.promoting → ∀ i' l,
      Rely i' l σ ({ σ.1 with coord := (σ.1.coord.exec a).2 }, p') := by
    intro p' hw hp i' l n _
    exact ⟨fun h => hw ▸ h, fun h => hp ▸ h⟩
  cases a with
  | storeWinner id =>
      show (logic sort).Change i σ (_, σ.2.noteCoord σ.1.coord (.storeWinner id))
      simp only [Past.noteCoord]
      by_cases hstored : (σ.1.coord.find id).isSome ∧ id ∈ σ.1.coord.nodeIds
      · rw [if_pos hstored]
        refine ⟨⟨?_, h.single⟩, trivial, fun i' l _ => hrely _ rfl rfl i' l⟩
        rintro f ⟨⟩ m hm hne _
        have hidle := hok hstored.1 hstored.2 m hm hne
        exact ⟨hidle.secondary, hidle.writing, hidle.promoting⟩
      · rw [if_neg hstored]
        exact ⟨hquiet _ rfl, trivial, fun i' l _ => hrely _ rfl rfl i' l⟩
  | _ => exact ⟨hquiet _ rfl, trivial, fun i' l _ => hrely _ rfl rfl i' l⟩

/-! ## Programs -/

theorem safe_quiet {α : Type} {prog : ClusterProg α} (hp : Quiet prog) (i : Nat) (l : Place)
    (σ : World × Past) : (logic sort).Safe i l prog (fun _ _ => True) σ := by
  refine Logic.safe_of_only (L := logic sort) ?_ ?_ hp σ
  · intro a io σ r σ' ha hi hok he
    cases l with
    | node n =>
        cases a with
        | node a =>
            refine change_node sort hi ?_ ?_ he
            · rintro rfl; exact ha.elim
            · rintro rfl; exact ha.elim
        | coord a => exact absurd he nofun
    | coord =>
        cases a with
        | node a => exact absurd he nofun
        | coord a => exact change_coord sort hi hok he
  · intro c j σ _ _
    cases c with
    | becomePrimary n => exact List.mem_cons_self
    | _ => trivial

/-- An action in the middle of a client write leaves the write past its test. -/
theorem writing_inner {σ σ' : World × Past} {io : Nat} {a : Act} {r : clusterSig.Res a} (ha : a.Inner)
    (he : (watched sort).exec i (.node n) io a σ = some (r, σ')) (hw : (i, n) ∈ σ.2.writing) :
    (i, n) ∈ σ'.2.writing := by
  cases a with
  | coord a => exact ha.elim
  | node a =>
      obtain ⟨node, -, rfl⟩ := exec_node sort he
      cases a <;> first | exact ha.elim | exact hw

/-- A program in the middle of a client write. -/
theorem safe_inner {α : Type} {prog : ClusterProg α} (hp : Inner prog) {σ : World × Past}
    (hw : (i, n) ∈ σ.2.writing) :
    (logic sort).Safe i (.node n) prog (fun _ σ => (i, n) ∈ σ.2.writing) σ :=
  ((safe_quiet sort hp.quiet i _ σ).keep (R := fun σ : World × Past => (i, n) ∈ σ.2.writing) hp
    (fun hr h => (hr n rfl).1 h) (fun ha he h => writing_inner sort ha he h) hw).weaken
    (fun _ _ _ h => h.1)

theorem safe_finish (status : KVPutStatus) {σ : World × Past} (hw : (i, n) ∈ σ.2.writing) :
    (logic sort).Safe i (.node n) (Manager.finish status) (fun _ _ => True) σ := by
  refine Logic.Safe.perform (L := logic sort) ?_
  intro σ₁ io r σ₂ hr hi _ he
  exact ⟨change_node sort hi (fun _ => (hr n rfl).1 hw) (by simp) he, fun _ _ _ => trivial⟩

theorem inner_of (a : NodeAct) (ha : Act.Inner (.node a)) : Inner (Manager.act a) :=
  ⟨ha, fun _ => trivial⟩

/-- The opening of a client write. -/
theorem safe_opening {row col : Field} {body : Option Field → ClusterProg KVPutStatus}
    (hb : ∀ old σ, Inv σ → (i, n) ∈ σ.2.writing →
      (logic sort).Safe i (.node n) (body old) (fun _ _ => True) σ) (σ : World × Past) :
    (logic sort).Safe i (.node n) (Manager.opening row col body) (fun _ _ => True) σ := by
  refine Logic.Safe.perform (L := logic sort) ?_
  intro σ₁ io (passed : Bool) σ₂ hr hi _ he
  have hc := change_node sort (a := .isPrimary) hi (by simp) (by simp) he
  refine ⟨hc, ?_⟩
  cases passed with
  | false => exact fun _ _ _ => trivial
  | true =>
      obtain ⟨node, -, rfl⟩ := exec_node sort he
      have hw : (i, n) ∈ (σ₁.2.note i n .isPrimary true).writing := List.mem_cons_self
      refine Logic.Safe.bind (L := logic sort) ((safe_inner sort (inner_of .lockWrite trivial) hw).weaken ?_) hc.inv
      intro _ σ₃ hi₃ hw₃ _
      exact Logic.Safe.bind (L := logic sort) ((safe_inner sort (inner_of (.get row col) trivial) hw₃).weaken
        (fun old σ hi hw _ => hb old σ hi hw)) hi₃

/-- The end of a client write. -/
theorem safe_closing {k : Nat} {op : Op} {rollback : ClusterProg Unit} (hq : Inner rollback)
    {σ : World × Past} (hi : Inv σ) (hw : (i, n) ∈ σ.2.writing) :
    (logic sort).Safe i (.node n) (Manager.closing n k op rollback) (fun _ _ => True) σ := by
  refine Logic.Safe.bind (L := logic sort)
    ((safe_inner sort (Manager.inner_forwardToAll n k op) hw).weaken ?_) hi
  intro ok σ₁ hi₁ hw₁ _
  split
  · exact safe_finish sort .ok hw₁
  · exact Logic.Safe.bind (L := logic sort) ((safe_inner sort hq hw₁).weaken
      (fun _ _ _ hw₂ _ => safe_finish sort _ hw₂)) hi₁

/-- **A client write is safe.** -/
theorem safe_client (i : Nat) (n : NodeId) (cw : ClientWrite) (σ : World × Past) :
    (logic sort).Safe i (.node n) (cw.prog n) (fun _ _ => True) σ := by
  cases cw with
  | put row col val =>
      refine safe_opening sort (fun old σ hi hw => ?_) σ
      refine Logic.Safe.bind (L := logic sort)
        ((safe_inner sort (Manager.inner_put row col val) hw).weaken ?_) hi
      intro (lsn : Option Nat) σ₁ hi₁ hw₁ _
      cases lsn with
      | none => exact safe_finish sort _ hw₁
      | some k => exact safe_closing sort (Manager.inner_rollbackPut n row col old) hi₁ hw₁
  | cput row col v1 v2 =>
      refine safe_opening sort (fun old σ hi hw => ?_) σ
      split
      · exact safe_finish sort _ hw
      · refine Logic.Safe.bind (L := logic sort)
          ((safe_inner sort (inner_of (.cput row col v1 v2) trivial) hw).weaken ?_) hi
        intro (lsn : Option Nat) σ₁ hi₁ hw₁ _
        cases lsn with
        | none => exact safe_finish sort _ hw₁
        | some k => exact safe_closing sort (Manager.inner_restore n row col v1) hi₁ hw₁
  | delete row col =>
      refine safe_opening sort (fun old σ hi hw => ?_) σ
      refine Logic.Safe.bind (L := logic sort)
        ((safe_inner sort (inner_of (.del row col) trivial) hw).weaken ?_) hi
      intro (lsn : Option (Option Nat)) σ₁ hi₁ hw₁ _
      rcases lsn with _ | _ | k
      · exact safe_finish sort _ hw₁
      · exact safe_finish sort _ hw₁
      · exact safe_closing sort (Manager.inner_rollbackDelete n row col old) hi₁ hw₁

/-- **Every handler is safe.** BECOME_PRIMARY may promote because it was sent. -/
theorem safe_handler (j : Nat) (c : Call) {σ : World × Past} (hc : Pending σ.2 j c) :
    (logic sort).Safe j (.node c.target) (Manager.handler c) (fun _ _ => True) σ := by
  cases c with
  | becomePrimary n =>
      refine Logic.Safe.perform (L := logic sort) ?_
      intro σ₁ io r σ₂ hr hi _ he
      have hclear := change_node sort (a := .clearReplicas true) hi (by simp) (by simp) he
      refine ⟨hclear, Logic.Safe.perform (L := logic sort) ?_⟩
      intro σ₃ io₃ r₃ σ₄ hr₃ hi₃ _ he₃
      obtain ⟨node, -, rfl⟩ := exec_node sort he
      have hpend : (j, n) ∈ σ₃.2.promoting := (hr₃ n rfl).2 ((hr n rfl).2 hc)
      exact ⟨change_node sort (a := .setPrimary true) hi₃ (by simp) (fun _ => hpend) he₃,
        fun _ _ _ => trivial⟩
  | _ => exact safe_quiet sort (Manager.quiet_handler (by simp)) j _ σ

/--
**One writer.**

In every run in which winners are stored only once the others are out of the way, a
client write answered OK after a failover was at the winner or at a node the
coordinator has promoted since.
-/
theorem singleWriter_of_reach {w : World} {c : Config (watched sort)}
    (h : Reach (w, Past.init) (When Alone) c) : SingleWriter c.st.2 := by
  have h0 : Inv (w, Past.init) := ⟨nofun, nofun⟩
  refine (Logic.sound (L := logic sort) (fun _ _ => trivial) h0 ?_
    (fun j c σ _ hc => safe_handler sort j c hc) h).inv.single
  intro r i σ hi
  cases r with
  | client n cw =>
      exact Logic.Safe.bind (L := logic sort) ((safe_client sort i n cw σ).weaken
        (fun _ _ _ _ _ _ _ _ => trivial)) hi
  | checkpoint n =>
      have hq : Quiet (Root.main sort (.checkpoint n)) := Manager.local_checkpoint.quiet.bind (fun _ => trivial)
      exact safe_quiet sort hq i _ σ
  | heartbeat => exact safe_quiet sort (quiet_lift _) i _ σ
  | lookup =>
      have hq : Quiet (Root.main sort .lookup) := (quiet_lift _).bind (fun _ => trivial)
      exact safe_quiet sort hq i _ σ

/-! ## Two failovers -/

section Trio

open Trio

/-- The condition, tested. -/
def aloneTest (_ : Nat) (l : Place) (_ : Nat) (a : Act) (σ : World × Past) : Bool :=
  match l, a with
  | .coord, .coord (.storeWinner id) => decide (∀ m ∈ σ.1.coord.nodeIds, m ≠ id → Idle σ.1 σ.2 m)
  | _, _ => true

theorem alone_of_test (i : Nat) (l : Place) (io : Nat) (a : Act) (σ : World × Past)
    (h : aloneTest i l io a σ = true) : Alone i l io a σ := by
  unfold aloneTest at h
  split at h
  · have h := of_decide_eq_true h
    exact fun _ _ => h
  · rename_i hne
    unfold Alone
    split
    · exact absurd rfl (hne _ rfl)
    · trivial

/-- A write was answered OK at `n` after a failover that passes a test. -/
def answered (n : NodeId) (test : Failover → Bool) (σ : World × Past) : Bool :=
  σ.2.answers.any (fun e => decide (e.1 = n) && e.2.any test)

theorem mem_answers {n : NodeId} {test : Failover → Bool} {σ : World × Past}
    (h : answered n test σ = true) : ∃ f, (n, some f) ∈ σ.2.answers ∧ test f = true := by
  obtain ⟨⟨m, f⟩, hmem, h⟩ := List.any_eq_true.mp h
  obtain ⟨hm, hf⟩ := Bool.and_eq_true_iff.mp h
  obtain rfl : m = n := of_decide_eq_true hm
  cases f with
  | none => exact absurd hf (by simp)
  | some f => exact ⟨f, hmem, hf⟩

/-- `a` crashes, is missed three times, and `b` takes over and serves a write. -/
def crashed : List (Line (watched Trio.sort)) :=
  [.move (.restart (.node a)),
   .move (.start .heartbeat), .drive (down a) 100 0,
   .move (.start .heartbeat), .drive (down a) 100 3,
   .move (.start .heartbeat), .drive (down a) 100 6,
   .move (.start (.client b (.put x x y))), .drive up 100 17]

theorem singleWriter_of_reach_crashed : ∃ c : Config (watched Trio.sort),
    (∃ f, (b, some f) ∈ c.st.2.answers ∧ f.winner = b) ∧ SingleWriter c.st.2 := by
  obtain ⟨c, hr, hc⟩ := reach_of_play (when_of_test alone_of_test) (Trio.world, Past.init) crashed
    (answered b (fun f => decide (f.winner = b))) (by decide +kernel)
  obtain ⟨f, hmem, hf⟩ := mem_answers hc
  exact ⟨c, ⟨f, hmem, of_decide_eq_true hf⟩, singleWriter_of_reach Trio.sort hr⟩

/-- `a` is only slow: it is missed three times, `b` takes over, and then a client
writes to `a`. -/
def slow : List (Line (watched Trio.sort)) :=
  [.move (.start .heartbeat), .drive (down a) 100 0,
   .move (.start .heartbeat), .drive (down a) 100 3,
   .move (.start .heartbeat), .drive (down a) 100 6,
   .move (.start (.client a (.put x x y))), .drive up 100 17]

/-- **The old primary answers OK after the failover.** -/
theorem not_singleWriter_slow : ¬ ∀ c : Config (watched Trio.sort),
    Reach (Trio.world, Past.init) Always c → SingleWriter c.st.2 := by
  intro h
  obtain ⟨c, hr, hc⟩ := reach_always_of_play (Trio.world, Past.init) slow
    (answered a (fun f => decide (a ∈ f.group ∧ a ≠ f.winner ∧ a ∉ f.since))) (by decide +kernel)
  obtain ⟨f, hmem, hf⟩ := mem_answers hc
  obtain ⟨hgroup, hne, hns⟩ := of_decide_eq_true hf
  rcases h c hr a f hmem hgroup with heq | hin
  · exact hne heq
  · exact hns hin

end Trio

end NCloud.Writers
