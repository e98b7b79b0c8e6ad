import NCloud.Coordinator.Tables

/-!
# Lookups after a promotion

A promotion looks at the LSNs of the nodes that answer, a lookup at every LSN in the
table. What the table holds of a node after `handle_node_failure` or
`handle_node_recovery` is what that node said last, or what was there before if it has
said nothing (`known`), so the two can be compared.
-/

namespace NCloud.Coordinator

open Process Wire

/-! ## Finding entries -/

theorem id_of_find {nodes : List StorageNode} {x : NodeId} {e : StorageNode}
    (h : find nodes x = some e) : e.id = x := by
  simpa using List.find?_some h

theorem find_update (c : Tables) (id x : NodeId) {f : StorageNode → StorageNode}
    (hf : ∀ e, (f e).id = e.id) :
    find (c.update id f).nodes x = if x = id then (find c.nodes x).map f else find c.nodes x := by
  have hcomp : (fun n : StorageNode => decide (n.id = x)) ∘ (fun n => if n.id = id then f n else n)
      = fun n => decide (n.id = x) := by
    funext n
    simp only [Function.comp_apply]
    split
    · rw [hf]
    · rfl
  have hmap : find (c.update id f).nodes x
      = (find c.nodes x).map (fun n => if n.id = id then f n else n) := by
    rw [find, Tables.update, List.find?_map, hcomp]
    rfl
  rw [hmap]
  cases hfind : find c.nodes x with
  | none =>
      split
      · rfl
      · rfl
  | some e =>
      rw [Option.map_some, Option.map_some, id_of_find hfind]
      split
      · rfl
      · rfl

/-- After `cache_refreshed_node`. -/
theorem find_writeBack (c : Tables) (node : StorageNode) (x : NodeId) :
    find (c.update node.id (fun e => e.writeBack node)).nodes x
      = if x = node.id then (find c.nodes x).map (fun e => e.writeBack node) else find c.nodes x :=
  find_update c node.id x (fun _ => rfl)

theorem find_markAlive (c : Tables) (id x : NodeId) :
    find (c.update id (fun e => { e with alive := true })).nodes x
      = if x = id then (find c.nodes x).map (fun e => { e with alive := true }) else find c.nodes x :=
  find_update c id x (fun _ => rfl)

theorem find_of_findAlive {nodes : List StorageNode} {x : NodeId} {e : StorageNode}
    (h : findAlive nodes x = some e) : find nodes x = some e ∧ e.alive = true :=
  Option.filter_eq_some_iff.mp h

theorem findAlive_of_find {nodes : List StorageNode} {x : NodeId} {e : StorageNode}
    (h : find nodes x = some e) (ha : e.alive = true) : findAlive nodes x = some e :=
  Option.filter_eq_some_iff.mpr ⟨h, ha⟩

theorem mem_aliveIn {nodes : List StorageNode} {ids : List NodeId} {skip : NodeId → Bool}
    {n : StorageNode} (h : n ∈ aliveIn nodes ids skip) :
    n.id ∈ ids ∧ find nodes n.id = some n := by
  obtain ⟨id, hid, hn⟩ := List.mem_filterMap.mp h
  obtain ⟨hfind, -⟩ := find_of_findAlive hn
  rw [id_of_find hfind]
  exact ⟨(List.mem_filter.mp hid).1, hfind⟩

theorem maxLsn_le_iff {tablet : TabletName} {m b : Nat} {nodes : List StorageNode} :
    maxLsn tablet m nodes ≤ b ↔ m ≤ b ∧ ∀ n ∈ nodes, n.tabletLsn tablet ≤ b := by
  induction nodes generalizing m with
  | nil => simp [maxLsn]
  | cons n nodes ih =>
      show maxLsn tablet (max m (n.tabletLsn tablet)) nodes ≤ b ↔ _
      rw [ih, Nat.max_le, and_assoc, List.forall_mem_cons]

/-- The largest known LSN of a group. -/
theorem tabletMaxKnownLsn_le_iff {nodes : List StorageNode} {tg : TabletGroup} {b : Nat} :
    tabletMaxKnownLsn nodes tg ≤ b ↔
      ∀ x ∈ tg.nodeIds, ∀ e, find nodes x = some e → e.tabletLsn tg.name ≤ b := by
  rw [tabletMaxKnownLsn, maxLsn_le_iff]
  constructor
  · rintro ⟨-, h⟩ x hx e he
    exact h e (List.mem_filterMap.mpr ⟨x, hx, he⟩)
  · intro h
    refine ⟨Nat.zero_le b, fun n hn => ?_⟩
    obtain ⟨x, hx, he⟩ := List.mem_filterMap.mp hn
    exact h x hx n he

/-! ## What nodes have said -/

/-- The answer of `x` to a ping, if this is one. -/
def pongOf (x : NodeId) (e : Exchange sig) : Option PingInfo :=
  match e.call, e.heard with
  | .ping y, .reply (.pong info) => if y = x then some info else none
  | _, _ => none

/-- The last of them. -/
def lastPong (x : NodeId) (tr : Trace sig) : Option PingInfo := (tr.filterMap (pongOf x)).getLast?

/-- What is known of a node: what it said last, on top of what was in the table. -/
def known (c : Tables) (tr : Trace sig) (x : NodeId) : Option StorageNode :=
  (find c.nodes x).map (fun e =>
    match lastPong x tr with
    | none => e
    | some info => e.parsePingMetadata info)

/-- A request to promote was heard to succeed. -/
def Promoted (w : NodeId) (tablet : TabletName) (tr : Trace sig) : Prop :=
  ∃ e ∈ tr, e.call = .becomePrimary w tablet ∧ e.heard = .reply .ok

theorem lastPong_snoc (x : NodeId) (tr : Trace sig) (e : Exchange sig) :
    lastPong x (tr ++ [e]) = (pongOf x e).orElse (fun _ => lastPong x tr) := by
  rw [lastPong, List.filterMap_append]
  cases h : pongOf x e with
  | none => simp [h, lastPong]
  | some info => simp [h]

/-- A request that is no ping, or has no answer, leaves what is known. -/
theorem lastPong_of_none {x : NodeId} {tr : Trace sig} {e : Exchange sig} (h : pongOf x e = none) :
    lastPong x (tr ++ [e]) = lastPong x tr := by
  rw [lastPong_snoc, h]
  rfl

/-- What the LSNs of an entry come from, and what a lookup names. -/
structure Facts where
  host : String
  port : Int
  lsn : Nat
  tabletLsns : List (TabletName × Nat)

def StorageNode.facts (e : StorageNode) : Facts := ⟨e.host, e.port, e.lsn, e.tabletLsns⟩

theorem tabletLsn_congr {e e' : StorageNode} (h : e.facts = e'.facts) (tablet : TabletName) :
    e.tabletLsn tablet = e'.tabletLsn tablet := by
  obtain ⟨-, -, hlsn, htab⟩ := Facts.mk.inj h
  rw [StorageNode.tabletLsn, StorageNode.tabletLsn, hlsn, htab]

/-- A node that has answered, and is in the table. -/
def Fit (c : Tables) (tr : Trace sig) (x : NodeId) : Prop :=
  (lastPong x tr).isSome = true ∧ (find c.nodes x).isSome = true

/-- The table `c'` in a routine that began with `c`. -/
structure Traced (c : Tables) (tr : Trace sig) (c' : Tables) : Prop where
  entries : ∀ x, (find c'.nodes x).map StorageNode.facts = (known c tr x).map StorageNode.facts
  alive : ∀ x e, (lastPong x tr).isSome = true → find c'.nodes x = some e → e.alive = true
  asked : ∀ e ∈ tr, ∀ w tablet, e.call = .becomePrimary w tablet → Fit c tr w

theorem traced_refl (c : Tables) : Traced c [] c where
  entries := by
    intro x
    rw [known]
    cases find c.nodes x with
    | none => rfl
    | some e => rfl
  alive := fun x e h => absurd h (by simp [lastPong])
  asked := nofun

variable {c c' : Tables} {tr : Trace sig} {α : Type}

theorem Fit.snoc {x : NodeId} (h : Fit c tr x) (e : Exchange sig) : Fit c (tr ++ [e]) x := by
  refine ⟨?_, h.2⟩
  rw [lastPong_snoc]
  cases pongOf x e with
  | none => exact h.1
  | some info => rfl

/-- A request about which nothing is learnt. -/
theorem Traced.exchange (h : Traced c tr c') {e : Exchange sig} (hnone : ∀ x, pongOf x e = none)
    (hask : ∀ w tablet, e.call = .becomePrimary w tablet → Fit c tr w) : Traced c (tr ++ [e]) c' where
  entries := by
    intro x
    rw [known, lastPong_of_none (hnone x)]
    exact h.entries x
  alive := by
    intro x e' hx
    rw [lastPong_of_none (hnone x)] at hx
    exact h.alive x e' hx
  asked := by
    intro e' he' w tablet hcall
    rcases List.mem_append.mp he' with he' | he'
    · exact (h.asked e' he' w tablet hcall).snoc e
    · rw [List.mem_singleton] at he'
      subst he'
      exact (hask w tablet hcall).snoc e'

/-- An answer that is stored at once. -/
theorem Traced.answer (h : Traced c tr c') {node : StorageNode} (hcopy : find c.nodes node.id = some node)
    (info : PingInfo) (silent : Bool) :
    Traced c (tr ++ [⟨.ping node.id, .reply (.pong info), silent⟩])
      (c'.update node.id (fun e => e.writeBack (node.refreshed info))) := by
  have hself : pongOf node.id ⟨.ping node.id, .reply (.pong info), silent⟩ = some info := by simp [pongOf]
  have hother : ∀ x, x ≠ node.id →
      pongOf x ⟨.ping node.id, .reply (.pong info), silent⟩ = none := by
    intro x hx
    simp [pongOf, Ne.symm hx]
  have hupd : ∀ x, find (c'.update node.id (fun e => e.writeBack (node.refreshed info))).nodes x
      = if x = node.id then (find c'.nodes x).map (fun e => e.writeBack (node.refreshed info))
        else find c'.nodes x :=
    find_writeBack c' (node.refreshed info)
  refine ⟨fun x => ?_, fun x e hx he => ?_, fun e he w tablet hcall => ?_⟩
  · rw [hupd]
    by_cases hx : x = node.id
    · subst hx
      have hold := h.entries node.id
      rw [known, hcopy, Option.map_some, Option.map_some] at hold
      obtain ⟨e, he, hfacts⟩ := Option.map_eq_some_iff.mp hold
      rw [if_pos rfl, he, known, hcopy, lastPong_snoc, hself]
      -- host and port are not touched, and the rest is what the node says
      have hnames : e.host = node.host ∧ e.port = node.port := by
        cases hlast : lastPong node.id tr with
        | none =>
            rw [hlast] at hfacts
            exact ⟨(Facts.mk.inj hfacts).1, (Facts.mk.inj hfacts).2.1⟩
        | some info' =>
            rw [hlast] at hfacts
            exact ⟨(Facts.mk.inj hfacts).1, (Facts.mk.inj hfacts).2.1⟩
      show some (Facts.mk e.host e.port _ _) = some (Facts.mk node.host node.port _ _)
      rw [hnames.1, hnames.2]
      rfl
    · rw [if_neg hx, known, lastPong_of_none (hother x hx)]
      exact h.entries x
  · rw [hupd] at he
    by_cases hxn : x = node.id
    · rw [if_pos hxn] at he
      obtain ⟨e', -, rfl⟩ := Option.map_eq_some_iff.mp he
      rfl
    · rw [if_neg hxn] at he
      rw [lastPong_of_none (hother x hxn)] at hx
      exact h.alive x e hx he
  · rcases List.mem_append.mp he with he | he
    · exact (h.asked e he w tablet hcall).snoc _
    · rw [List.mem_singleton] at he
      subst he
      exact absurd hcall (by simp)

/-- Entries that are only made alive. -/
theorem Traced.markAlive (h : Traced c tr c') {c₂ : Tables} (id : NodeId) (hnodes : c₂.nodes = c'.nodes) :
    Traced c tr (c₂.update id (fun e => { e with alive := true })) := by
  have hupd : ∀ x, find (c₂.update id (fun e => { e with alive := true })).nodes x
      = if x = id then (find c'.nodes x).map (fun e => { e with alive := true }) else find c'.nodes x := by
    intro x
    rw [find_markAlive, hnodes]
  refine ⟨fun x => ?_, fun x e hx he => ?_, h.asked⟩
  · rw [hupd, ← h.entries x]
    split
    · rw [Option.map_map]
      rfl
    · rfl
  · rw [hupd] at he
    split at he
    · obtain ⟨e', -, rfl⟩ := Option.map_eq_some_iff.mp he
      rfl
    · exact h.alive x e hx he

/-! ## The routines -/

/-- A run of part of a routine: the table stays traced, and what was fit is fit. -/
abbrev Keeps (c : Tables) (p : CoordProg α) (Q : α → Trace sig → Prop) (tr : Trace sig) (c' : Tables) : Prop :=
  Leads exec p (fun a tr' c'' => Traced c tr' c'' ∧ (∀ x, Fit c tr x → Fit c tr' x) ∧ Q a tr') tr c'

theorem leads_write {β : Type} {a : Act} {f : Unit → CoordProg β} {Q : β → Trace sig → Tables → Prop} :
    Leads exec (write a >>= f) Q tr c ↔ Leads exec (f ()) Q tr (exec a c).2 :=
  Iff.rfl

/-- Copies of entries of the table. -/
def Copy (c : Tables) (node : StorageNode) : Prop := find c.nodes node.id = some node

/-- Programs compose. -/
theorem Keeps.bind {β : Type} {p : CoordProg α} {f : α → CoordProg β} {Q : α → Trace sig → Prop}
    {R : β → Trace sig → Prop} (hp : Keeps c p Q tr c')
    (hf : ∀ a tr' c'', Traced c tr' c'' → (∀ x, Fit c tr x → Fit c tr' x) → Q a tr' →
      Keeps c (f a) R tr' c'') : Keeps c (p >>= f) R tr c' := by
  refine Leads.bind (hp.mono ?_)
  rintro a tr' c'' ⟨ht, hfit, hq⟩
  refine (hf a tr' c'' ht hfit hq).mono ?_
  rintro b tr'' c₃ ⟨ht', hfit', hr⟩
  exact ⟨ht', fun x hx => hfit' x (hfit x hx), hr⟩

theorem Keeps.done {a : α} {Q : α → Trace sig → Prop} (h : Traced c tr c') (hq : Q a tr) :
    Keeps c (pure a) Q tr c' :=
  ⟨h, fun _ hx => hx, hq⟩

/-- One of the sections that make an entry alive. -/
theorem keeps_write {a : Act} (h : Traced c tr (exec a c').2) :
    Keeps c (write a) (fun _ _ => True) tr c' :=
  ⟨h, fun _ hx => hx, trivial⟩

theorem keeps_attempts (h : Traced c tr c') {call : Call} (hping : ∀ y, call ≠ .ping y)
    (hask : ∀ w tablet, call = .becomePrimary w tablet → Fit c tr w) (n : Nat) :
    Keeps c (attempts call n) (fun _ _ => True) tr c' := by
  induction n generalizing tr with
  | zero => exact .done h trivial
  | succ n ih =>
      intro o silent
      have hnone : ∀ x, pongOf x ⟨call, o, silent⟩ = none := by
        intro x
        cases call with
        | ping y => exact absurd rfl (hping y)
        | _ => rfl
      have hnext := h.exchange hnone hask
      have hfit : ∀ x, Fit c tr x → Fit c (tr ++ [⟨call, o, silent⟩]) x := fun x hx => hx.snoc _
      have hrest : Keeps c (attempts call n) (fun _ _ => True) (tr ++ [⟨call, o, silent⟩]) c' :=
        ih hnext (fun w tablet hw => hfit w (hask w tablet hw))
      have hagain := hrest.mono (fun b tr' c'' hb =>
        (⟨hb.1, fun x hx => hb.2.1 x (hfit x hx), trivial⟩ :
          Traced c tr' c'' ∧ (∀ x, Fit c tr x → Fit c tr' x) ∧ True))
      cases o with
      | reply r =>
          cases r with
          | ok => exact ⟨hnext, hfit, trivial⟩
          | _ => exact hagain
      | _ => exact hagain

theorem keeps_refreshAndCache (h : Traced c tr c') {node : StorageNode} (hcopy : Copy c node) :
    Keeps c (refreshAndCache node)
      (fun o tr' => ∀ f, o = some f → f.id = node.id ∧ Fit c tr' f.id) tr c' := by
  intro o silent
  have hmiss : (∀ x, pongOf x ⟨.ping node.id, o, silent⟩ = none) →
      Traced c (tr ++ [⟨.ping node.id, o, silent⟩]) c' :=
    fun hnone => h.exchange hnone (fun w tablet hw => absurd hw (by simp))
  have hfit : ∀ x, Fit c tr x → Fit c (tr ++ [⟨.ping node.id, o, silent⟩]) x := fun x hx => hx.snoc _
  cases o with
  | reply r =>
      cases r with
      | pong info =>
          refine ⟨h.answer hcopy info silent, hfit, ?_⟩
          rintro f ⟨⟩
          refine ⟨rfl, ?_, ?_⟩
          · show (lastPong node.id _).isSome = true
            rw [lastPong_snoc]
            simp [pongOf]
          · show (find c.nodes node.id).isSome = true
            rw [hcopy]
            rfl
      | ok => exact ⟨hmiss (fun _ => rfl), hfit, nofun⟩
      | err => exact ⟨hmiss (fun _ => rfl), hfit, nofun⟩
  | refused => exact ⟨hmiss (fun _ => rfl), hfit, nofun⟩
  | sendFailed => exact ⟨hmiss (fun _ => rfl), hfit, nofun⟩
  | noReply => exact ⟨hmiss (fun _ => rfl), hfit, nofun⟩

theorem keeps_refreshFollowers (h : Traced c tr c') {fs : List StorageNode} (hcopy : ∀ f ∈ fs, Copy c f) :
    Keeps c (refreshFollowers fs) (fun _ _ => True) tr c' := by
  induction fs generalizing tr c' with
  | nil => exact .done h trivial
  | cons f fs ih =>
      refine Keeps.bind (keeps_refreshAndCache h (hcopy f List.mem_cons_self)) ?_
      intro o tr' c'' h' _ _
      have hrest := ih h' (fun f' hf' => hcopy f' (List.mem_cons_of_mem _ hf'))
      cases o with
      | none => exact hrest
      | some f' => exact Keeps.bind hrest (fun _ _ _ h'' _ _ => .done h'' trivial)

/-- Any request but a ping and a promotion. -/
theorem keeps_control (h : Traced c tr c') {call : Call} (hping : ∀ y, call ≠ .ping y)
    (hprimary : ∀ w tablet, call ≠ .becomePrimary w tablet) :
    Keeps c (attempts call 3) (fun _ _ => True) tr c' :=
  keeps_attempts h hping (fun w tablet hw => absurd hw (hprimary w tablet)) 3

theorem keeps_attachFollowers (h : Traced c tr c') (primary : NodeId) (tablet : TabletName)
    (fs : List StorageNode) : Keeps c (attachFollowers primary tablet fs) (fun _ _ => True) tr c' := by
  induction fs generalizing tr c' with
  | nil => exact .done h trivial
  | cons f fs ih =>
      have hdemote : Keeps c (demoteAndSyncNode f.id primary tablet) (fun _ _ => True) tr c' :=
        keeps_control h nofun nofun
      refine Keeps.bind hdemote ?_
      intro ok tr' c'' h' _ _
      cases ok with
      | false => exact ih h'
      | true =>
          have hadd : Keeps c (addReplicaToPrimary primary f.id tablet) (fun _ _ => True) tr' c'' :=
            keeps_control h' nofun nofun
          exact Keeps.bind hadd (fun _ _ _ h'' _ _ => ih h'')

theorem keeps_promoteNode (h : Traced c tr c') {w : NodeId} (hw : Fit c tr w) (tablet : TabletName) :
    Keeps c (promoteNode w tablet) (fun _ _ => True) tr c' := by
  have hask : ∀ w' tablet', Call.becomePrimary w tablet = .becomePrimary w' tablet' → Fit c tr w' := by
    rintro w' tablet' ⟨⟩
    exact hw
  have hping : ∀ y, Call.becomePrimary w tablet ≠ .ping y := nofun
  exact keeps_attempts h hping hask 3

theorem keeps_each {β : Type} {f : β → CoordProg Unit} {l : List β}
    (hf : ∀ x ∈ l, ∀ tr' c'', Traced c tr' c'' → Keeps c (f x) (fun _ _ => True) tr' c'')
    (h : Traced c tr c') : Keeps c (each f l) (fun _ _ => True) tr c' := by
  induction l generalizing tr c' with
  | nil => exact .done h trivial
  | cons x l ih =>
      refine Keeps.bind (hf x List.mem_cons_self tr c' h) ?_
      intro _ tr' c'' h' _ _
      exact ih (fun y hy => hf y (List.mem_cons_of_mem _ hy)) h'

/-! ### `handle_node_failure` -/

theorem keeps_rebuild (h : Traced c tr c') {plan : RebuildPlan} (hp : Copy c plan.primary)
    (hfs : ∀ f ∈ plan.followers, Copy c f) : Keeps c (rebuild plan) (fun _ _ => True) tr c' := by
  refine Keeps.bind (keeps_refreshAndCache h hp) ?_
  intro o tr₁ c₁ h₁ _ ho
  cases o with
  | none => exact .done h₁ trivial
  | some p =>
      have hfit : Fit c tr₁ p.id := (ho p rfl).2
      refine Keeps.bind (keeps_refreshFollowers h₁ hfs) ?_
      intro fs tr₂ c₂ h₂ hmono₂ _
      have hlist : Keeps c (rebuildPrimaryReplicas p.id plan.tablet fs) (fun _ _ => True) tr₂ c₂ := by
        refine Keeps.bind (keeps_promoteNode h₂ (hmono₂ _ hfit) plan.tablet) ?_
        intro ok tr₃ c₃ h₃ _ _
        cases ok with
        | true => exact keeps_attachFollowers h₃ p.id plan.tablet fs
        | false => exact .done h₃ trivial
      refine Keeps.bind hlist ?_
      intro _ tr₃ c₃ h₃ _ _
      exact keeps_write (h₃.markAlive p.id rfl)

/-- The candidates that are left are fit. -/
theorem keeps_refreshCandidates (h : Traced c tr c') (tablet : TabletName) {cs : List Candidate}
    (hcs : ∀ cand ∈ cs, Copy c cand.primary ∧ ∀ f ∈ cand.followers, Copy c f) (maxKnown : Nat) :
    Keeps c (refreshCandidates tablet cs maxKnown)
      (fun q tr' => ∀ cand ∈ q.1, Fit c tr' cand.primary.id) tr c' := by
  induction cs generalizing tr c' maxKnown with
  | nil => exact .done h (fun _ hcand => absurd hcand List.not_mem_nil)
  | cons cand cs ih =>
      obtain ⟨hp, hfs⟩ := hcs cand List.mem_cons_self
      have hrest := fun cand' hcand' => hcs cand' (List.mem_cons_of_mem _ hcand')
      refine Keeps.bind (keeps_refreshAndCache h hp) ?_
      intro o tr₁ c₁ h₁ _ ho
      cases o with
      | none => exact ih h₁ hrest maxKnown
      | some p =>
          have hfit : Fit c tr₁ p.id := (ho p rfl).2
          refine Keeps.bind (keeps_refreshFollowers h₁ hfs) ?_
          intro fs tr₂ c₂ h₂ hmono₂ _
          refine Keeps.bind (ih h₂ hrest _) ?_
          intro q tr₃ c₃ h₃ hmono₃ hq
          refine .done h₃ ?_
          intro cand' hcand'
          rcases List.mem_cons.mp hcand' with rfl | hcand'
          · exact hmono₃ _ (hmono₂ _ hfit)
          · exact hq cand' hcand'

theorem keeps_pickWinner (h : Traced c tr c') (tablet : TabletName) (maxKnown : Nat) {cs : List Candidate}
    (hcs : ∀ cand ∈ cs, Fit c tr cand.primary.id) :
    Keeps c (pickWinner tablet maxKnown cs) (fun _ _ => True) tr c' := by
  induction cs generalizing tr c' with
  | nil => exact .done h trivial
  | cons cand cs ih =>
      have hrest := fun cand' hcand' => hcs cand' (List.mem_cons_of_mem _ hcand')
      show Keeps c (if cand.lsn < maxKnown then _ else _) _ tr c'
      split
      · exact ih h hrest
      · refine Keeps.bind (keeps_promoteNode h (hcs cand List.mem_cons_self) tablet) ?_
        intro ok tr' c'' h' hmono _
        cases ok with
        | true => exact .done h' trivial
        | false => exact ih h' (fun cand' hcand' => hmono _ (hrest cand' hcand'))

theorem traced_storeWinner (h : Traced c tr c') (tablet : TabletName) (id : NodeId) :
    Traced c tr (exec (.storeWinner tablet id) c').2 := by
  show Traced c tr (if (find c'.nodes id).isSome then _ else c')
  split
  · exact h.markAlive id rfl
  · exact h

theorem keeps_elect {sort : List Candidate → List Candidate} (hsort : ∀ l, (sort l).Perm l)
    (h : Traced c tr c') {plan : FailurePlan}
    (hplan : ∀ cand ∈ plan.candidates, Copy c cand.primary ∧ ∀ f ∈ cand.followers, Copy c f) :
    Keeps c (elect sort plan) (fun _ _ => True) tr c' := by
  refine Keeps.bind (keeps_refreshCandidates h plan.tablet hplan plan.maxKnown) ?_
  rintro ⟨cs, maxKnown⟩ tr₁ c₁ h₁ _ hcs
  refine Keeps.bind (keeps_pickWinner h₁ plan.tablet maxKnown
    (fun cand hcand => hcs cand ((hsort cs).mem_iff.mp hcand))) ?_
  intro o tr₂ c₂ h₂ _ _
  cases o with
  | none => exact .done h₂ trivial
  | some w =>
      refine Keeps.bind (keeps_attachFollowers h₂ w.primary.id plan.tablet w.followers) ?_
      intro _ tr₃ c₃ h₃ _ _
      exact keeps_write (traced_storeWinner h₃ plan.tablet w.primary.id)

theorem copy_of_mem_aliveIn {ids : List NodeId} {skip : NodeId → Bool} {n : StorageNode}
    (h : n ∈ aliveIn c.nodes ids skip) : Copy c n :=
  (mem_aliveIn h).2

theorem copy_of_rebuildPlan {dead : NodeId} {tg : TabletGroup} {plan : RebuildPlan}
    (h : rebuildPlan c.nodes dead tg = some plan) :
    Copy c plan.primary ∧ ∀ f ∈ plan.followers, Copy c f := by
  unfold rebuildPlan at h
  split at h
  · exact absurd h (by simp)
  · split at h
    · exact absurd h (by simp)
    · obtain ⟨p, hp, rfl⟩ := Option.map_eq_some_iff.mp h
      obtain ⟨hfind, -⟩ := find_of_findAlive hp
      refine ⟨?_, fun f hf => copy_of_mem_aliveIn hf⟩
      show find c.nodes p.id = some p
      rw [id_of_find hfind]
      exact hfind

theorem copy_of_failurePlan {sort : List Candidate → List Candidate} (hsort : ∀ l, (sort l).Perm l)
    {dead : NodeId} {tg : TabletGroup} {plan : FailurePlan}
    (h : failurePlan sort c.nodes dead tg = some plan) :
    ∀ cand ∈ plan.candidates, Copy c cand.primary ∧ ∀ f ∈ cand.followers, Copy c f := by
  unfold failurePlan at h
  split at h
  · exact absurd h (by simp)
  · split at h
    · exact absurd h (by simp)
    · split at h
      · exact absurd h (by simp)
      · obtain rfl := Option.some.inj h
        intro cand hcand
        have hmem := (hsort _).mem_iff.mp hcand
        obtain ⟨n, hn, rfl⟩ := List.mem_map.mp hmem
        exact ⟨copy_of_mem_aliveIn hn, fun f hf => copy_of_mem_aliveIn hf⟩

theorem keeps_handleNodeFailure {sort : List Candidate → List Candidate} (hsort : ∀ l, (sort l).Perm l)
    (dead : NodeId) : Keeps c (handleNodeFailure sort dead) (fun _ _ => True) [] c := by
  rw [handleNodeFailure]
  refine leads_perform.mpr ?_
  dsimp only [exec]
  cases find c.nodes dead with
  | none => exact Keeps.done (traced_refl c) trivial
  | some e =>
      refine Keeps.bind (keeps_each ?_ (traced_refl c)) ?_
      · intro plan hplan tr' c'' h
        obtain ⟨tg, -, hplan⟩ := List.mem_filterMap.mp hplan
        obtain ⟨hp, hfs⟩ := copy_of_rebuildPlan hplan
        exact keeps_rebuild h hp hfs
      · intro _ tr' c'' h _ _
        refine keeps_each ?_ h
        intro plan hplan tr₂ c₂ h₂
        obtain ⟨tg, -, hplan⟩ := List.mem_filterMap.mp hplan
        exact keeps_elect hsort h₂ (copy_of_failurePlan hsort hplan)

/-! ### `handle_node_recovery` -/

theorem keeps_refreshPrimary (h : Traced c tr c') {plan : RecoveryPlan}
    (hp : ∀ p, plan.primary = some p → Copy c p) (followers : List StorageNode) :
    Keeps c (refreshPrimary plan followers) (fun _ _ => True) tr c' := by
  unfold refreshPrimary
  cases hprimary : plan.primary with
  | none =>
      show Keeps c (if plan.oldPrimary ≠ plan.live.id then _ else _) _ tr c'
      split
      · exact .done h trivial
      · exact .done h trivial
  | some p =>
      dsimp only
      cases followers.find? (fun f => decide (f.id = p.id)) with
      | some f => exact .done h trivial
      | none =>
          exact (keeps_refreshAndCache h (hp p hprimary)).mono (fun _ _ _ hq => ⟨hq.1, hq.2.1, trivial⟩)

theorem keeps_promoteRecovered (h : Traced c tr c') (tablet : TabletName) {live : StorageNode}
    (hlive : Fit c tr live.id) (followers : List StorageNode) :
    Keeps c (promoteRecovered tablet live followers) (fun _ _ => True) tr c' := by
  refine Keeps.bind (keeps_promoteNode h hlive tablet) ?_
  intro ok tr₁ c₁ h₁ _ _
  cases ok with
  | false => exact .done h₁ trivial
  | true =>
      refine Keeps.bind (keeps_attachFollowers h₁ live.id tablet followers) ?_
      intro _ tr₂ c₂ h₂ _ _
      exact keeps_write (h₂.markAlive live.id rfl)

theorem keeps_rejoin (h : Traced c tr c') (tablet : TabletName) (live primary : StorageNode) :
    Keeps c (rejoin tablet live primary) (fun _ _ => True) tr c' := by
  have hdemote : Keeps c (demoteAndSyncNode live.id primary.id tablet) (fun _ _ => True) tr c' :=
    keeps_control h nofun nofun
  refine Keeps.bind hdemote ?_
  intro ok tr₁ c₁ h₁ _ _
  cases ok with
  | false => exact .done h₁ trivial
  | true =>
      have hadd : Keeps c (addReplicaToPrimary primary.id live.id tablet) (fun _ _ => True) tr₁ c₁ :=
        keeps_control h₁ nofun nofun
      refine Keeps.bind hadd ?_
      intro ok tr₂ c₂ h₂ _ _
      cases ok with
      | false => exact .done h₂ trivial
      | true => exact keeps_write (h₂.markAlive live.id rfl)

theorem keeps_recover (h : Traced c tr c') {plan : RecoveryPlan} (hlive : Copy c plan.live)
    (hp : ∀ p, plan.primary = some p → Copy c p) (hfs : ∀ f ∈ plan.followers, Copy c f) :
    Keeps c (recover plan) (fun _ _ => True) tr c' := by
  refine Keeps.bind (keeps_refreshAndCache h hlive) ?_
  intro o tr₁ c₁ h₁ _ ho
  cases o with
  | none => exact .done h₁ trivial
  | some live =>
      have hfit : Fit c tr₁ live.id := (ho live rfl).2
      refine Keeps.bind (keeps_refreshFollowers h₁ hfs) ?_
      intro followers tr₂ c₂ h₂ hmono₂ _
      refine Keeps.bind (keeps_refreshPrimary h₂ hp followers) ?_
      intro primary tr₃ c₃ h₃ hmono₃ _
      have hpromote := keeps_promoteRecovered h₃ plan.tablet (hmono₃ _ (hmono₂ _ hfit)) followers
      show Keeps c (if _ then _ else _) _ tr₃ c₃
      split
      · exact .done h₃ trivial
      · cases primary with
        | none => exact hpromote
        | some p =>
            show Keeps c (if _ then _ else _) _ tr₃ c₃
            split
            · exact keeps_rejoin h₃ plan.tablet live p
            · exact hpromote

theorem copy_of_recoveryPlan {live : StorageNode} (hlive : Copy c live) {tg : TabletGroup}
    {plan : RecoveryPlan} (h : recoveryPlan c.nodes live tg = some plan) :
    Copy c plan.live ∧ (∀ p, plan.primary = some p → Copy c p) ∧ ∀ f ∈ plan.followers, Copy c f := by
  unfold recoveryPlan at h
  split at h
  · exact absurd h (by simp)
  · split at h
    · exact absurd h (by simp)
    · obtain rfl := Option.some.inj h
      refine ⟨hlive, fun p hp => ?_, fun f hf => copy_of_mem_aliveIn hf⟩
      obtain ⟨hfind, -⟩ := find_of_findAlive hp
      show find c.nodes p.id = some p
      rw [id_of_find hfind]
      exact hfind

theorem keeps_handleNodeRecovery (live : NodeId) :
    Keeps c (handleNodeRecovery live) (fun _ _ => True) [] c := by
  rw [handleNodeRecovery]
  refine leads_write.mpr (leads_perform.mpr ?_)
  dsimp only [exec]
  cases hnode : find c.nodes live with
  | none => exact Keeps.done (traced_refl c) trivial
  | some node =>
      have hcopy : Copy c node := by
        rw [Copy, id_of_find hnode]
        exact hnode
      refine keeps_each ?_ (traced_refl c)
      intro plan hplan tr' c'' h
      obtain ⟨tg, -, hplan⟩ := List.mem_filterMap.mp hplan
      obtain ⟨hlive, hp, hfs⟩ := copy_of_recoveryPlan hcopy hplan
      exact keeps_recover h hlive hp hfs

/-! ## Lookups -/

/-- The routines that promote. -/
inductive Routine where
  | failure (dead : NodeId)
  | recovery (live : NodeId)

def Routine.prog (sort : List Candidate → List Candidate) : Routine → CoordProg Unit
  | failure dead => handleNodeFailure sort dead
  | recovery live => handleNodeRecovery live

/-- The two kinds of lookup. -/
inductive Query where
  | lookup
  | readLookup

def Query.prog : Query → Bytes → CoordProg LookupReply
  | lookup => handleLookup
  | readLookup => handleReadLookup

theorem traced_of_replay {sort : List Candidate → List Candidate} (hsort : ∀ l, (sort l).Perm l)
    {routine : Routine} (hrun : replay exec (routine.prog sort) tr c = some ((), c')) : Traced c tr c' := by
  cases routine with
  | failure dead => exact (Leads.sound (keeps_handleNodeFailure hsort dead) hrun).1
  | recovery live => exact (Leads.sound (keeps_handleNodeRecovery live) hrun).1

theorem tabletLsn_refreshed_refreshed (e : StorageNode) (info : PingInfo) (tablet : TabletName) :
    ((e.refreshed info).refreshed info).tabletLsn tablet = (e.parsePingMetadata info).tabletLsn tablet := by
  have hlsn : (info.lsn.getD (info.lsn.getD e.lsn)) = info.lsn.getD e.lsn := by
    cases info.lsn <;> rfl
  have htab : (if info.tabletLsns = [] then (if info.tabletLsns = [] then e.tabletLsns else info.tabletLsns)
      else info.tabletLsns) = if info.tabletLsns = [] then e.tabletLsns else info.tabletLsns := by
    split <;> rfl
  show ((if info.tabletLsns = [] then (if info.tabletLsns = [] then e.tabletLsns else info.tabletLsns)
      else info.tabletLsns).lookup tablet).getD (info.lsn.getD (info.lsn.getD e.lsn)) = _
  rw [hlsn, htab]
  rfl

/-- The fence of a lookup, given the table it reads: the primary's own entry is fresh. -/
theorem maxKnown_le_iff (tg : TabletGroup) {w : NodeId} {e : StorageNode} (node : StorageNode)
    (he : find c.nodes w = some e) (hid : node.id = w) (b : Nat)
    (hself : (e.writeBack node).tabletLsn tg.name ≤ b) :
    tabletMaxKnownLsn (c.update node.id (fun e => e.writeBack node)).nodes tg ≤ b ↔
      ∀ x ∈ tg.nodeIds, x ≠ w → ∀ e', find c.nodes x = some e' → e'.tabletLsn tg.name ≤ b := by
  subst hid
  rw [tabletMaxKnownLsn_le_iff]
  constructor
  · intro h x hx hne e' he'
    refine h x hx e' ?_
    rw [find_writeBack, if_neg hne]
    exact he'
  · intro h x hx e' he'
    rw [find_writeBack] at he'
    split at he'
    · rename_i hxw
      subst hxw
      rw [he] at he'
      obtain rfl := Option.some.inj he'
      exact hself
    · rename_i hne
      exact h x hx hne e' he'

/-- What a lookup of a row of the tablet answers while its primary gives this answer. -/
def Answers (p : PingInfo) (tr : Trace sig) : Prop := ∀ e ∈ tr, e.heard = .reply (.pong p)

/-- A lookup that has heard something else. -/
theorem leads_of_not_answers {p : CoordProg α} {info : PingInfo} {call : Call} {o : Outcome Reply}
    {silent : Bool} (ho : o ≠ .reply (.pong info)) {Q : α → Tables → Prop} (c : Tables) :
    Leads exec p (fun a tr s => Answers info tr → Q a s) (tr ++ [⟨call, o, silent⟩]) c := by
  refine (Leads.of_trace (T := fun tr => (⟨call, o, silent⟩ : Exchange sig) ∈ tr)
    (fun tr e' h => List.mem_append_left _ h) (List.mem_append_right _ List.mem_cons_self)).mono ?_
  intro a tr s hmem hall
  exact absurd (hall _ hmem) ho

/-- **A lookup goes by the largest LSN in the table.** -/
theorem leads_lookupPrimary {row : Bytes} {t : TabletGroup} {w : NodeId} {e : StorageNode}
    (ht : c.tablets.find? (fun tg => tg.covers row) = some t) (hhead : t.nodeIds.head? = some w)
    (he : find c.nodes w = some e) (halive : e.alive = true) (info : PingInfo) :
    Leads exec (lookupPrimary row) (fun ans tr _ => Answers info tr → (ans = .ok e.host e.port ↔
      ∀ x ∈ t.nodeIds, x ≠ w → ∀ e', find c.nodes x = some e' →
        e'.tabletLsn t.name ≤ (e.parsePingMetadata info).tabletLsn t.name)) [] c := by
  have hid : e.id = w := id_of_find he
  rw [lookupPrimary]
  refine leads_perform.mpr ?_
  dsimp only [exec]
  rw [ht]
  dsimp only
  refine leads_perform.mpr ?_
  dsimp only [exec]
  rw [hhead, Option.bind_some, findAlive_of_find he halive]
  intro o silent
  by_cases ho : o = .reply (.pong info)
  · subst ho
    -- the table after the first answer
    have hfence : tabletMaxKnownLsn (c.update e.id (fun e' => e'.writeBack (e.refreshed info))).nodes t
        ≤ (e.parsePingMetadata info).tabletLsn t.name ↔ _ :=
      maxKnown_le_iff t (e.refreshed info) he hid _ (Nat.le_refl _)
    show Leads (S := sig) exec (if (e.parsePingMetadata info).tabletLsn t.name <
      tabletMaxKnownLsn (c.update e.id (fun e' => e'.writeBack (e.refreshed info))).nodes t then _ else _) _ _ _
    split
    · rename_i hlt
      have hnot := (not_congr hfence).mp (Nat.not_le.mpr hlt)
      intro o' silent'
      by_cases ho' : o' = .reply (.pong info)
      · subst ho'
        -- the second answer is the same, and so is the table
        obtain ⟨c₁, hc₁⟩ : ∃ c₁, c₁ = c.update e.id (fun e' => e'.writeBack (e.refreshed info)) := ⟨_, rfl⟩
        have hsame : ∀ x, x ≠ w → find c₁.nodes x = find c.nodes x := by
          intro x hx
          rw [hc₁]
          exact (find_writeBack c (e.refreshed info) x).trans (if_neg (fun h => hx (h.trans hid)))
        have he₁ : find c₁.nodes w = some (e.writeBack (e.refreshed info)) := by
          rw [hc₁]
          refine (find_writeBack c (e.refreshed info) w).trans ((if_pos hid.symm).trans ?_)
          rw [he]
          rfl
        have hfence₂ := maxKnown_le_iff t ((e.refreshed info).refreshed info) he₁ hid
          ((e.parsePingMetadata info).tabletLsn t.name)
          (Nat.le_of_eq (tabletLsn_refreshed_refreshed e info t.name))
        show Leads (S := sig) exec (if ((e.refreshed info).refreshed info).tabletLsn t.name <
          tabletMaxKnownLsn ((c.update e.id (fun e' => e'.writeBack (e.refreshed info))).update e.id
            (fun e' => e'.writeBack ((e.refreshed info).refreshed info))).nodes t then _ else _) _ _ _
        rw [tabletLsn_refreshed_refreshed, ← hc₁]
        split
        · intro _
          exact ⟨fun h => absurd h (by simp), fun h => absurd h hnot⟩
        · rename_i hle
          refine absurd (fun x hx hne e' he' => ?_) hnot
          exact hfence₂.mp (Nat.not_lt.mp hle) x hx hne e' (by rw [hsame x hne]; exact he')
      · exact leads_of_not_answers ho' _
    · rename_i hle
      intro _
      exact ⟨fun _ => hfence.mp (Nat.not_lt.mp hle), fun _ => rfl⟩
  · exact leads_of_not_answers ho _

/-- The table and what is known say the same about LSNs. -/
theorem Traced.lsn_le_iff (h : Traced c tr c') (x : NodeId) (tablet : TabletName) (b : Nat) :
    (∀ e, find c'.nodes x = some e → e.tabletLsn tablet ≤ b) ↔
      ∀ e, known c tr x = some e → e.tabletLsn tablet ≤ b := by
  have hfacts := h.entries x
  constructor
  · intro hle e he
    rw [he] at hfacts
    obtain ⟨e', he', heq⟩ := Option.map_eq_some_iff.mp hfacts
    rw [← tabletLsn_congr heq]
    exact hle e' he'
  · intro hle e he
    rw [he] at hfacts
    obtain ⟨e', he', heq⟩ := Option.map_eq_some_iff.mp hfacts.symm
    rw [← tabletLsn_congr heq]
    exact hle e' he'

theorem facts_parsePingMetadata {e e' : StorageNode} (h : e.facts = e'.facts) (info : PingInfo) :
    (e.parsePingMetadata info).facts = (e'.parsePingMetadata info).facts := by
  obtain ⟨hhost, hport, hlsn, htab⟩ := Facts.mk.inj h
  simp only [StorageNode.facts, StorageNode.parsePingMetadata, hhost, hport, hlsn, htab]

/-- **When a promoted primary can be looked up.** -/
theorem routable_iff {sort : List Candidate → List Candidate} (hsort : ∀ l, (sort l).Perm l)
    {routine : Routine} (hrun : replay exec (routine.prog sort) tr c = some ((), c')) {t : TabletGroup}
    {w : NodeId} (hprom : Promoted w t.name tr) {row : Bytes}
    (ht : c'.tablets.find? (fun tg => tg.covers row) = some t) (hhead : t.nodeIds.head? = some w)
    {query : Query} {tr' : Trace sig} {ans : LookupReply} {c'' : Tables}
    (hquery : replay exec (query.prog row) tr' c' = some (ans, c'')) {info : PingInfo}
    (hpings : Answers info tr') :
    ∃ e, known c tr w = some e ∧ (ans = .ok e.host e.port ↔
      ∀ x ∈ t.nodeIds, x ≠ w → ∀ e', known c tr x = some e' →
        e'.tabletLsn t.name ≤ (e.parsePingMetadata info).tabletLsn t.name) := by
  have htraced := traced_of_replay hsort hrun
  obtain ⟨ex, hex, hcall, -⟩ := hprom
  obtain ⟨hpong, hfind⟩ := htraced.asked ex hex w t.name hcall
  obtain ⟨e₀, he₀⟩ := Option.isSome_iff_exists.mp hfind
  obtain ⟨e, he⟩ : ∃ e, known c tr w = some e := by
    rw [known, he₀]
    exact ⟨_, rfl⟩
  have hfacts := htraced.entries w
  rw [he] at hfacts
  obtain ⟨e', he', heq⟩ := Option.map_eq_some_iff.mp hfacts
  have halive := htraced.alive w e' hpong he'
  have hprog : query.prog row = lookupPrimary row := by
    cases query with
    | lookup => rfl
    | readLookup => rfl
  rw [hprog] at hquery
  have hiff := Leads.sound (leads_lookupPrimary ht hhead he' halive info) hquery hpings
  obtain ⟨hhost, hport, -, -⟩ := Facts.mk.inj heq
  refine ⟨e, he, ?_⟩
  rw [← hhost, ← hport, ← tabletLsn_congr (facts_parsePingMetadata heq info) t.name, hiff]
  exact forall₃_congr (fun x _ _ => htraced.lsn_le_iff x t.name _)

/-! ### Two nodes -/

namespace Pair

/-- A node that is gone, with the LSN it had. -/
def gone (lsn : Nat) : StorageNode :=
  { id := [97], host := "a.local", port := 5001, alive := false, wasDown := true, lsn := lsn, missed := 3 }

/-- A node that has just come back. -/
def back : StorageNode := { id := [98], host := "b.local", port := 5002, lsn := 3 }

/-- Their only tablet. -/
def tablet (ids : List NodeId) : TabletGroup := { name := [116], rowStart := [], rowEnd := [], nodeIds := ids }

def before (lsn : Nat) : Tables := { nodes := [gone lsn, back], tablets := [tablet [[97], [98]]] }

/-- What `back` says of itself. -/
def info : PingInfo := { lsn := some 3, tabletLsns := [([116], 3)], pid := 7 }

/-- It answers the probe and the promotion. -/
def exchanges : Trace sig :=
  [⟨.ping [98], .reply (.pong info), false⟩, ⟨.becomePrimary [98] [116], .reply .ok, false⟩]

/-- It answers so many pings of a lookup. -/
def pings (n : Nat) : Trace sig := List.replicate n ⟨.ping [98], .reply (.pong info), false⟩

/-- The tables afterwards. -/
def afterwards (lsn : Nat) : Tables :=
  { nodes := [gone lsn, back.writeBack (back.refreshed info)], tablets := [tablet [[98], [97]]] }

theorem replay_recovery (sort : List Candidate → List Candidate) (lsn : Nat) :
    replay exec ((Routine.recovery [98]).prog sort) exchanges (before lsn) = some ((), afterwards lsn) := rfl

theorem answers_pings (n : Nat) : Answers info (pings n) := by
  intro e he
  rw [List.eq_of_mem_replicate he]

theorem promoted : Promoted [98] [116] exchanges :=
  ⟨_, List.mem_cons_of_mem _ List.mem_cons_self, rfl, rfl⟩

end Pair

/-- The other replica was not ahead. -/
theorem routable_iff_notAhead :
    replay exec (handleLookup []) (Pair.pings 1) (Pair.afterwards 3)
        = some (.ok "b.local" 5002, Pair.afterwards 3) ∧
      ∃ e, known (Pair.before 3) Pair.exchanges [98] = some e ∧
        (LookupReply.ok "b.local" 5002 = .ok e.host e.port ↔
          ∀ x ∈ [([98] : NodeId), [97]], x ≠ [98] → ∀ e', known (Pair.before 3) Pair.exchanges x = some e' →
            e'.tabletLsn [116] ≤ (e.parsePingMetadata Pair.info).tabletLsn [116]) := by
  have hquery : replay exec (Query.lookup.prog []) (Pair.pings 1) (Pair.afterwards 3)
      = some (.ok "b.local" 5002, Pair.afterwards 3) := rfl
  have hsort : ∀ l : List Candidate, (id l).Perm l := fun l => List.Perm.refl l
  have ht : (Pair.afterwards 3).tablets.find? (fun tg => tg.covers []) = some (Pair.tablet [[98], [97]]) := rfl
  exact ⟨hquery, routable_iff hsort (Pair.replay_recovery id 3) Pair.promoted ht rfl hquery
    (Pair.answers_pings 1)⟩

/-- The replica that is gone was ahead: the promoted node is refused as stale. -/
theorem not_routable_ahead :
    ¬ ∀ (sort : List Candidate → List Candidate), (∀ l, (sort l).Perm l) → ∀ (routine : Routine)
      (tr : Trace sig) (c c' : Tables), replay exec (routine.prog sort) tr c = some ((), c') →
      ∀ (t : TabletGroup) (w : NodeId), Promoted w t.name tr → ∀ row : Bytes,
      c'.tablets.find? (fun tg => tg.covers row) = some t → t.nodeIds.head? = some w →
      ∀ (query : Query) (tr' : Trace sig) (ans : LookupReply) (c'' : Tables),
      replay exec (query.prog row) tr' c' = some (ans, c'') → ∀ info, Answers info tr' →
      ∃ e, find c'.nodes w = some e ∧ ans = .ok e.host e.port := by
  intro h
  obtain ⟨e, -, hans⟩ := h id (fun l => List.Perm.refl l) (.recovery [98]) Pair.exchanges (Pair.before 5)
    (Pair.afterwards 5) (Pair.replay_recovery id 5) (Pair.tablet [[98], [97]]) [98] Pair.promoted [] rfl rfl
    .lookup (Pair.pings 2) (.error "primary stale; waiting for freshest replica")
    (Pair.afterwards 5) rfl Pair.info (Pair.answers_pings 2)
  exact absurd hans (by simp)

end NCloud.Coordinator
