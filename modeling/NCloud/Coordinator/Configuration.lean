import NCloud.Coordinator.Election

/-!
# Roles from start-up on

The three routines that promote, run one after another. A failure and a recovery store the
node that they have heard to accept. `configure_initial_tablet_roles` promotes the freshest
node of every tablet in every round, but stores the new order only after a round in which
everything went well; after its last round it gives up, and lookups go on to name the first
node of the configuration.
-/

namespace NCloud.Coordinator

open Process Wire

variable {sort : List Candidate → List Candidate} {c c' : Tables} {tr : Trace sig}

/-! ## Plans -/

/-- A rebuild is planned for the first node. -/
theorem primary_of_rebuildPlan {dead : NodeId} {tg : TabletGroup} {plan : RebuildPlan}
    (h : rebuildPlan c.nodes dead tg = some plan) : tg.nodeIds.head? = some plan.primary.id := by
  unfold rebuildPlan at h
  split at h
  · exact absurd h nofun
  · rename_i head rest hids
    split at h
    · exact absurd h nofun
    · obtain ⟨p, hp, rfl⟩ := Option.map_eq_some_iff.mp h
      rw [hids, List.head?_cons, ← id_of_find (find_of_findAlive hp).1]

/-- A tablet has lost its primary, or a secondary, not both. -/
theorem failurePlan_of_rebuildPlan {dead : NodeId} {tg : TabletGroup} {plan : RebuildPlan}
    (h : rebuildPlan c.nodes dead tg = some plan) : failurePlan sort c.nodes dead tg = none := by
  unfold rebuildPlan at h
  unfold failurePlan
  split at h
  · exact absurd h nofun
  · rename_i head rest hids
    split at h
    · exact absurd h nofun
    · rename_i hlost
      obtain ⟨p, hp, -⟩ := Option.map_eq_some_iff.mp h
      rw [not_or, not_not] at hlost
      exact if_pos (.inr ⟨hlost.2, by rw [hp]; rfl⟩)

theorem tablet_of_recoveryPlan {live : StorageNode} {tg : TabletGroup} {plan : RecoveryPlan}
    (h : recoveryPlan c.nodes live tg = some plan) :
    plan.tablet = tg.name ∧ plan.live = live ∧ live.id ∈ tg.nodeIds := by
  unfold recoveryPlan at h
  split at h
  · exact absurd h nofun
  · rename_i head rest hids
    split at h
    · exact absurd h nofun
    · rename_i hmem
      obtain rfl := Option.some.inj h
      rw [hids]
      exact ⟨rfl, rfl, not_not.mp hmem⟩

/-- A tablet has one name. -/
theorem eq_of_name {l : List TabletGroup} (hnames : (l.map TabletGroup.name).Nodup) {tg tg' : TabletGroup}
    (h : tg ∈ l) (h' : tg' ∈ l) (hname : tg.name = tg'.name) : tg = tg' := by
  have hone := groupOf_of_mem hnames h
  rw [hname, groupOf_of_mem hnames h'] at hone
  exact (Option.some.inj hone).symm

theorem nodup_plans {β : Type} {plan : TabletGroup → Option β} {name : β → TabletName} {l : List TabletGroup}
    (hplan : ∀ tg b, plan tg = some b → name b = tg.name) (hnames : (l.map TabletGroup.name).Nodup) :
    ((l.filterMap plan).map name).Nodup :=
  hnames.sublist (names_filterMap hplan l)

/-! ## Failure and recovery -/

/-- **`handle_node_failure`**, rebuilds and elections. -/
theorem leads_handleNodeFailure (hsort : ∀ l, (sort l).Perm l)
    (hnames : (c.tablets.map TabletGroup.name).Nodup) (dead : NodeId) :
    Leads exec (handleNodeFailure sort dead) (fun _ tr' c' => Routed c tr' c') [] c := by
  rw [handleNodeFailure]
  refine leads_perform.mpr ?_
  dsimp only [exec]
  cases hdead : find c.nodes dead with
  | none => exact routed_refl c
  | some node =>
      have hrebuild : ∀ tg plan, rebuildPlan c.nodes dead tg = some plan → plan.tablet = tg.name :=
        fun _ _ => tablet_of_rebuildPlan
      have helect : ∀ tg plan, failurePlan sort c.nodes dead tg = some plan → plan.tablet = tg.name :=
        fun _ _ h => (failurePlan_cases hsort h).1
      refine Leads.bind ((leads_each (nodup_plans hrebuild hnames) ?_ (routed_refl c)
        (fun _ _ => untouched_refl c _)).mono ?_)
      · intro plan hplan
        obtain ⟨tg, htg, hplan⟩ := List.mem_filterMap.mp hplan
        refine turns_rebuild ?_
        rw [hrebuild tg plan hplan, primaryOf, groupOf_of_mem hnames htg]
        exact primary_of_rebuildPlan hplan
      · rintro _ tr₁ c₁ ⟨h₁, hrest⟩
        refine (leads_each (nodup_plans helect hnames) ?_ h₁ ?_).mono (fun _ _ _ h => h.1)
        · intro plan hplan
          obtain ⟨tg, htg, hplan⟩ := List.mem_filterMap.mp hplan
          obtain ⟨hname, -, hcands⟩ := failurePlan_cases hsort hplan
          refine turns_elect hsort (hname ▸ groupOf_of_mem hnames htg) (fun cand hcand => ?_)
          obtain ⟨hid, -, hfind⟩ := hcands cand hcand
          exact ⟨hid, find_isSome_iff.mp (by rw [hfind]; rfl)⟩
        · -- no rebuild has touched a tablet that is without a primary
          intro plan hplan
          obtain ⟨tg, htg, hplan⟩ := List.mem_filterMap.mp hplan
          refine hrest plan.tablet (fun hmem => ?_) (untouched_refl c _)
          obtain ⟨plan', hplan', heq⟩ := List.mem_map.mp hmem
          obtain ⟨tg', htg', hplan'⟩ := List.mem_filterMap.mp hplan'
          rw [hrebuild tg' plan' hplan', helect tg plan hplan] at heq
          obtain rfl := eq_of_name hnames htg' htg heq
          exact absurd (hplan.symm.trans (failurePlan_of_rebuildPlan hplan')) (Option.some_ne_none _)

/-- **`handle_node_recovery`**. -/
theorem leads_handleNodeRecovery (hnames : (c.tablets.map TabletGroup.name).Nodup) (live : NodeId) :
    Leads exec (handleNodeRecovery live) (fun _ tr' c' => Routed c tr' c') [] c := by
  rw [handleNodeRecovery]
  refine leads_write.mpr (leads_perform.mpr ?_)
  dsimp only [exec]
  cases hlive : find c.nodes live with
  | none => exact routed_refl c
  | some node =>
      have hrecover : ∀ tg plan, recoveryPlan c.nodes node tg = some plan → plan.tablet = tg.name :=
        fun _ _ h => (tablet_of_recoveryPlan h).1
      refine (leads_each (nodup_plans hrecover hnames) ?_ (routed_refl c)
        (fun _ _ => untouched_refl c _)).mono (fun _ _ _ h => h.1)
      intro plan hplan
      obtain ⟨tg, htg, hplan⟩ := List.mem_filterMap.mp hplan
      obtain ⟨hname, hnode, hmem⟩ := tablet_of_recoveryPlan hplan
      have hgroup : groupOf c.tablets plan.tablet = some tg := by
        rw [hname]
        exact groupOf_of_mem hnames htg
      exact turns_recover hgroup (by rw [hnode]; exact hmem)

/-! ## A round of `configure_initial_tablet_roles` -/

/-- A control request, for which there are three attempts. -/
def Call.control : Call → Bool
  | .ping _ => false
  | .connectRepl _ => false
  | _ => true

/-- A control request has failed three times in a row. -/
def TurnedDown (tr : Trace sig) : Prop :=
  ∃ call : Call, call.control = true ∧ ∃ tries : Trace sig, tries.length = 3 ∧ tries <:+: tr ∧
    ∀ e ∈ tries, e.call = call ∧ e.heard ≠ .reply .ok

/-- A replication port was not ready, and nobody had been promoted yet. -/
def PortRefused (tr : Trace sig) : Prop :=
  ∃ pre e post id, tr = pre ++ e :: post ∧ e.call = .connectRepl id ∧ e.heard ≠ .reply .ok ∧
    ∀ tablet, Silent tablet pre

/-- Everything that a round with these tablets needs: all replicas are believed alive, the ports
are ready, and no control request is given up. -/
structure Granted (tgs : List TabletGroup) (c : Tables) (tr : Trace sig) : Prop where
  alive : ∀ tg ∈ tgs, ∀ id ∈ tg.nodeIds, (findAlive c.nodes id).isSome = true
  ports : ¬ PortRefused tr
  requests : ¬ TurnedDown tr

theorem TurnedDown.append {tr₁ tr₂ : Trace sig} (h : TurnedDown tr₁ ∨ TurnedDown tr₂) :
    TurnedDown (tr₁ ++ tr₂) := by
  rcases h with ⟨call, hcall, tries, hlen, hin, hfail⟩ | ⟨call, hcall, tries, hlen, hin, hfail⟩
  · exact ⟨call, hcall, tries, hlen, hin.trans (List.prefix_append _ _).isInfix, hfail⟩
  · exact ⟨call, hcall, tries, hlen, hin.trans (List.suffix_append _ _).isInfix, hfail⟩

theorem turnedDown_of_attempts {call : Call} (h : call.control = true) {δ : Trace sig} (hlen : δ.length = 3)
    (hcall : ∀ e ∈ δ, e.call = call) (hfail : ∀ e ∈ δ, e.heard ≠ .reply .ok) : TurnedDown δ :=
  ⟨call, h, δ, hlen, List.infix_rfl, fun e he => ⟨hcall e he, hfail e he⟩⟩

/-- Less was needed for a part. -/
theorem Granted.of_append {tgs : List TabletGroup} {δ : Trace sig} (h : Granted tgs c (tr ++ δ)) :
    Granted tgs c tr := by
  refine ⟨h.alive, fun hrefused => h.ports ?_, fun hdown => h.requests (.append (.inl hdown))⟩
  obtain ⟨pre, e, post, id, rfl, hrest⟩ := hrefused
  exact ⟨pre, e, post ++ δ, id, by simp, hrest⟩

/-! ### Its parts -/

/-- The same nodes in a copy, alive or not as before. -/
abbrev SameNodes (nodes snap : List StorageNode) : Prop :=
  List.Forall₂ (fun n s => s.id = n.id ∧ s.alive = n.alive) nodes snap

theorem isSome_findAlive_of_sameNodes {nodes snap : List StorageNode} (h : SameNodes nodes snap) (id : NodeId) :
    (findAlive snap id).isSome = (findAlive nodes id).isSome := by
  induction h with
  | nil => rfl
  | @cons n s nodes snap hns _ ih =>
      by_cases hid : n.id = id
      · have hs : s.id = id := hns.1.trans hid
        rw [findAlive, findAlive, find, find, List.find?_cons_of_pos (by simpa using hs),
          List.find?_cons_of_pos (by simpa using hid), Option.filter_some, Option.filter_some, hns.2]
        cases n.alive with
        | true => rfl
        | false => rfl
      · have hs : s.id ≠ id := fun heq => hid (hns.1.symm.trans heq)
        rw [findAlive, findAlive, find, find, List.find?_cons_of_neg (by simpa using hs),
          List.find?_cons_of_neg (by simpa using hid)]
        exact ih

theorem calmly_refreshIfAlive (node : StorageNode) :
    Calmly (refreshIfAlive node) (fun s => s.id = node.id ∧ s.alive = node.alive) tr c := by
  show Calmly (if node.alive = true then _ else _) _ tr c
  split
  · rename_i halive
    refine Calmly.bind (calmly_refreshAndCache node) ?_
    intro o tr' c' ho
    cases o with
    | none => exact .done ⟨rfl, rfl⟩
    | some f => exact .done ⟨(ho f rfl).1, (ho f rfl).2.trans halive.symm⟩
  · exact .done ⟨rfl, rfl⟩

theorem calmly_refreshAlive (nodes : List StorageNode) :
    Calmly (refreshAlive nodes) (SameNodes nodes) tr c := by
  induction nodes generalizing tr c with
  | nil => exact .done .nil
  | cons node nodes ih =>
      refine Calmly.bind (calmly_refreshIfAlive node) ?_
      intro s tr₁ c₁ hs
      refine Calmly.bind ih ?_
      intro snap tr₂ c₂ hsnap
      exact .done (.cons hs hsnap)

theorem leads_replPortReady (id : NodeId) :
    Leads exec (replPortReady id) (fun ok tr' c' => c' = c ∧ ∃ e, tr' = tr ++ [e] ∧ e.call = .connectRepl id ∧
      (ok = false → e.heard ≠ .reply .ok)) tr c := by
  intro o silent
  cases o with
  | reply r =>
      cases r with
      | ok => exact ⟨rfl, _, rfl, rfl, nofun⟩
      | err => exact ⟨rfl, _, rfl, rfl, fun _ => nofun⟩
      | pong info => exact ⟨rfl, _, rfl, rfl, fun _ => nofun⟩
  | refused => exact ⟨rfl, _, rfl, rfl, fun _ => nofun⟩
  | sendFailed => exact ⟨rfl, _, rfl, rfl, fun _ => nofun⟩
  | noReply => exact ⟨rfl, _, rfl, rfl, fun _ => nofun⟩

/-- The ports are tried, and no other request is made. -/
theorem leads_checkPorts (snap : List StorageNode) (ids : List NodeId) :
    Leads exec (checkPorts snap ids) (fun q tr' c' => c' = c ∧ ∃ δ, tr' = tr ++ δ ∧
      (∀ e ∈ δ, ∃ id, e.call = .connectRepl id) ∧
      (q.1 = false → q.2 = false ∨ ∃ id ∈ ids, findAlive snap id = none) ∧
      (q.2 = false → ∃ e ∈ δ, e.heard ≠ .reply .ok)) tr c := by
  induction ids generalizing tr with
  | nil => exact ⟨rfl, [], by simp, fun _ he => absurd he List.not_mem_nil, nofun, nofun⟩
  | cons id ids ih =>
      rw [checkPorts]
      cases hid : findAlive snap id with
      | none =>
          refine Leads.bind (ih.mono ?_)
          rintro ⟨allOk, ready⟩ tr₁ c₁ ⟨rfl, δ, rfl, hcall, -, hready⟩
          exact ⟨rfl, δ, rfl, hcall, fun _ => .inr ⟨id, List.mem_cons_self, hid⟩, hready⟩
      | some node =>
          refine Leads.bind ((leads_replPortReady node.id).mono ?_)
          rintro ok tr₁ c₁ ⟨rfl, e, rfl, he, hok⟩
          refine Leads.bind (ih.mono ?_)
          rintro ⟨allOk, ready⟩ tr₂ c₂ ⟨rfl, δ, rfl, hcall, hall, hready⟩
          refine ⟨rfl, e :: δ, by simp, List.forall_mem_cons.mpr ⟨⟨node.id, he⟩, hcall⟩, ?_, ?_⟩
          · show (allOk && ok) = false → (ready && ok) = false ∨ _
            intro hfalse
            cases ok with
            | false => exact .inl (Bool.and_false ready)
            | true =>
                rw [Bool.and_true] at hfalse ⊢
                rcases hall hfalse with hr | ⟨id', hmem, hdead⟩
                · exact .inl hr
                · exact .inr ⟨id', List.mem_cons_of_mem _ hmem, hdead⟩
          · show (ready && ok) = false → _
            intro hfalse
            cases ok with
            | false => exact ⟨e, List.mem_cons_self, hok rfl⟩
            | true =>
                rw [Bool.and_true] at hfalse
                obtain ⟨e', he', hheard⟩ := hready hfalse
                exact ⟨e', List.mem_cons_of_mem _ he', hheard⟩

/-- **The first node of every group is asked**, and accepts unless it is dead or does not answer. -/
theorem leads_promoteAll (snap : List StorageNode) {tgs : List TabletGroup}
    (hnames : (tgs.map TabletGroup.name).Nodup) :
    Leads exec (promoteAll snap tgs) (fun ok tr' c' => c' = c ∧ ∃ δ, tr' = tr ++ δ ∧
      (∀ e ∈ δ, ∀ n tablet, e.call = .becomePrimary n tablet → ∃ tg ∈ tgs, tg.name = tablet ∧ tg.nodeIds ≠ []) ∧
      (ok = true → ∀ tg ∈ tgs, ∀ head, tg.nodeIds.head? = some head → LastOk tg.name head δ) ∧
      (ok = false → TurnedDown δ ∨ ∃ tg ∈ tgs, ∃ id ∈ tg.nodeIds, findAlive snap id = none)) tr c := by
  induction tgs generalizing tr with
  | nil => exact ⟨rfl, [], by simp, fun _ he => absurd he List.not_mem_nil,
      fun _ _ htg => absurd htg List.not_mem_nil, nofun⟩
  | cons tg tgs ih =>
      obtain ⟨hnot, hnames⟩ := List.nodup_cons.mp hnames
      have hrest := fun tr => @ih tr hnames
      rw [promoteAll]
      cases hids : tg.nodeIds with
      | nil =>
          refine (hrest tr).mono ?_
          rintro ok tr' c' ⟨hc, δ, rfl, hcall, hok, hwhy⟩
          refine ⟨hc, δ, rfl, ?_, ?_, ?_⟩
          · intro e he n tablet hn
            obtain ⟨tg', hmem, htg'⟩ := hcall e he n tablet hn
            exact ⟨tg', List.mem_cons_of_mem _ hmem, htg'⟩
          · intro h
            refine List.forall_mem_cons.mpr ⟨?_, hok h⟩
            rw [hids]
            nofun
          · intro h
            rcases hwhy h with hdown | ⟨tg', hmem, htg'⟩
            · exact .inl hdown
            · exact .inr ⟨tg', List.mem_cons_of_mem _ hmem, htg'⟩
      | cons head ids =>
          dsimp only
          cases hhead : findAlive snap head with
          | none =>
              refine Leads.bind ((hrest tr).mono ?_)
              rintro ok tr' c' ⟨hc, δ, rfl, hcall, -, -⟩
              refine ⟨hc, δ, rfl, ?_, nofun, fun _ => .inr ⟨tg, List.mem_cons_self, head, ?_, hhead⟩⟩
              · intro e he n tablet hn
                obtain ⟨tg', hmem, htg'⟩ := hcall e he n tablet hn
                exact ⟨tg', List.mem_cons_of_mem _ hmem, htg'⟩
              · rw [hids]
                exact List.mem_cons_self
          | some p =>
              have hp : p.id = head := id_of_find (find_of_findAlive hhead).1
              refine Leads.bind ((leads_promoteNode p.id tg.name).mono ?_)
              rintro ok₁ tr₁ c₁ ⟨rfl, δ₁, rfl, -, hasked, htrue, hfalse⟩
              refine Leads.bind ((hrest _).mono ?_)
              rintro ok₂ tr₂ c₂ ⟨rfl, δ₂, rfl, hcall, hok, hwhy⟩
              refine ⟨rfl, δ₁ ++ δ₂, by simp, ?_, ?_, ?_⟩
              · intro e he n tablet hn
                rcases List.mem_append.mp he with he | he
                · rw [hasked e he] at hn
                  exact ⟨tg, List.mem_cons_self, (Call.becomePrimary.inj hn).2, by rw [hids]; exact nofun⟩
                · obtain ⟨tg', hmem, htg'⟩ := hcall e he n tablet hn
                  exact ⟨tg', List.mem_cons_of_mem _ hmem, htg'⟩
              · intro h
                obtain ⟨h₂, h₁⟩ := (Bool.and_eq_true _ _).mp h
                have hother : Silent tg.name δ₂ := by
                  intro e he n hn
                  obtain ⟨tg', hmem, hname, -⟩ := hcall e he n tg.name hn
                  exact hnot (hname ▸ List.mem_map_of_mem hmem)
                refine List.forall_mem_cons.mpr ⟨?_, fun tg' hmem head' hh => (hok h₂ tg' hmem head' hh).prepend δ₁⟩
                rw [hids]
                rintro head' ⟨⟩
                exact hp ▸ (htrue h₁).append hother
              · intro h
                cases ok₁ with
                | false =>
                    obtain ⟨hlen, hfail⟩ := hfalse rfl
                    exact .inl (.append (.inl (turnedDown_of_attempts rfl hlen hasked hfail)))
                | true =>
                    rcases hwhy (by simpa using h) with hdown | ⟨tg', hmem, htg'⟩
                    · exact .inl (.append (.inr hdown))
                    · exact .inr ⟨tg', List.mem_cons_of_mem _ hmem, htg'⟩

theorem calmly_awaitPort (id : NodeId) (n : Nat) : Calmly (awaitPort id n) (fun _ => True) tr c := by
  induction n generalizing tr c with
  | zero => exact .done trivial
  | succ n ih =>
      refine Calmly.bind (Q := fun _ => True) ?_ (fun ok tr' c' _ => ?_)
      · refine (leads_replPortReady id).mono ?_
        rintro ok tr' c' ⟨rfl, e, rfl, he, -⟩
        refine ⟨⟨rfl, rfl, [e], rfl, fun tablet e' he' n hn => ?_⟩, trivial⟩
        rw [List.mem_singleton.mp he', he] at hn
        exact absurd hn nofun
      · cases ok with
        | true => exact .done trivial
        | false => exact ih

theorem calmly_awaitAll (snap : List StorageNode) (tgs : List TabletGroup) :
    Calmly (each (awaitPorts snap) tgs) (fun _ => True) tr c := by
  induction tgs generalizing tr c with
  | nil => exact .done trivial
  | cons tg tgs ih =>
      refine Calmly.bind (Q := fun _ => True) ?_ (fun _ _ _ _ => ih)
      rw [awaitPorts]
      cases tg.nodeIds.head?.bind (findAlive snap) with
      | none => exact .done trivial
      | some p => exact calmly_awaitPort p.id 20

/-- The three attempts at a request that promotes nobody. -/
theorem leads_control {call : Call} (hcall : call.control = true)
    (hother : ∀ n tablet, call ≠ .becomePrimary n tablet) :
    Leads exec (attempts call 3) (fun ok tr' c' => c' = c ∧ ∃ δ, tr' = tr ++ δ ∧ (∀ tablet, Silent tablet δ) ∧
      (ok = false → TurnedDown δ)) tr c := by
  refine (leads_attempts call 3).mono ?_
  rintro ok tr' c' ⟨hc, δ, rfl, hasked, -, hfalse⟩
  refine ⟨hc, δ, rfl, fun tablet e he n hn => hother n tablet ((hasked e he).symm.trans hn), fun h => ?_⟩
  obtain ⟨hlen, hfail⟩ := hfalse h
  exact turnedDown_of_attempts hcall hlen hasked hfail

theorem leads_syncFollowers (snap : List StorageNode) (primary : NodeId) (tablet : TabletName)
    (ids : List NodeId) :
    Leads exec (syncFollowers snap primary tablet ids) (fun ok tr' c' => c' = c ∧ ∃ δ, tr' = tr ++ δ ∧
      (∀ tablet, Silent tablet δ) ∧
      (ok = false → TurnedDown δ ∨ ∃ id ∈ ids, findAlive snap id = none)) tr c := by
  induction ids generalizing tr with
  | nil => exact ⟨rfl, [], by simp, fun _ _ he => absurd he List.not_mem_nil, nofun⟩
  | cons id ids ih =>
      rw [syncFollowers]
      cases hid : findAlive snap id with
      | none =>
          refine Leads.bind (ih.mono ?_)
          rintro ok tr' c' ⟨hc, δ, rfl, hsilent, -⟩
          exact ⟨hc, δ, rfl, hsilent, fun _ => .inr ⟨id, List.mem_cons_self, hid⟩⟩
      | some f =>
          have hsync : Call.control (.becomeSecondary f.id primary tablet) = true := rfl
          refine Leads.bind ((leads_control hsync nofun).mono ?_)
          rintro ok₁ tr₁ c₁ ⟨rfl, δ₁, rfl, hsilent₁, hfalse₁⟩
          cases ok₁ with
          | false =>
              refine Leads.bind (ih.mono ?_)
              rintro ok tr' c' ⟨hc, δ, rfl, hsilent, -⟩
              exact ⟨hc, δ₁ ++ δ, by simp, fun t => (hsilent₁ t).append (hsilent t),
                fun _ => .inl (.append (.inl (hfalse₁ rfl)))⟩
          | true =>
              have hadd : Call.control (.addReplica primary f.id tablet) = true := rfl
              refine Leads.bind ((leads_control hadd nofun).mono ?_)
              rintro ok₂ tr₂ c₂ ⟨rfl, δ₂, rfl, hsilent₂, hfalse₂⟩
              refine Leads.bind (ih.mono ?_)
              rintro ok tr' c' ⟨hc, δ, rfl, hsilent, hwhy⟩
              refine ⟨hc, δ₁ ++ (δ₂ ++ δ), by simp,
                fun t => (hsilent₁ t).append ((hsilent₂ t).append (hsilent t)), fun h => ?_⟩
              cases ok₂ with
              | false => exact .inl (.append (.inr (.append (.inl (hfalse₂ rfl)))))
              | true =>
                  rcases hwhy (by simpa using h) with hdown | ⟨id', hmem, hdead⟩
                  · exact .inl (.append (.inr (.append (.inr hdown))))
                  · exact .inr ⟨id', List.mem_cons_of_mem _ hmem, hdead⟩

theorem leads_syncAll (snap : List StorageNode) (tgs : List TabletGroup) :
    Leads exec (syncAll snap tgs) (fun ok tr' c' => c' = c ∧ ∃ δ, tr' = tr ++ δ ∧
      (∀ tablet, Silent tablet δ) ∧
      (ok = false → TurnedDown δ ∨ ∃ tg ∈ tgs, ∃ id ∈ tg.nodeIds, findAlive snap id = none)) tr c := by
  induction tgs generalizing tr with
  | nil => exact ⟨rfl, [], by simp, fun _ _ he => absurd he List.not_mem_nil, nofun⟩
  | cons tg tgs ih =>
      have hmore : (∃ tg' ∈ tgs, ∃ id ∈ tg'.nodeIds, findAlive snap id = none) →
          ∃ tg' ∈ tg :: tgs, ∃ id ∈ tg'.nodeIds, findAlive snap id = none := by
        rintro ⟨tg', hmem, htg'⟩
        exact ⟨tg', List.mem_cons_of_mem _ hmem, htg'⟩
      rw [syncAll]
      cases hids : tg.nodeIds with
      | nil =>
          refine ih.mono ?_
          rintro ok tr' c' ⟨hc, δ, rfl, hsilent, hwhy⟩
          exact ⟨hc, δ, rfl, hsilent, fun h => (hwhy h).imp id hmore⟩
      | cons head rest =>
          dsimp only
          cases hhead : findAlive snap head with
          | none =>
              refine Leads.bind (ih.mono ?_)
              rintro ok tr' c' ⟨hc, δ, rfl, hsilent, -⟩
              exact ⟨hc, δ, rfl, hsilent, fun _ =>
                .inr ⟨tg, List.mem_cons_self, head, by rw [hids]; exact List.mem_cons_self, hhead⟩⟩
          | some p =>
              refine Leads.bind ((leads_syncFollowers snap p.id tg.name rest).mono ?_)
              rintro ok₁ tr₁ c₁ ⟨rfl, δ₁, rfl, hsilent₁, hwhy₁⟩
              refine Leads.bind (ih.mono ?_)
              rintro ok₂ tr₂ c₂ ⟨rfl, δ₂, rfl, hsilent₂, hwhy₂⟩
              refine ⟨rfl, δ₁ ++ δ₂, by simp, fun t => (hsilent₁ t).append (hsilent₂ t), fun h => ?_⟩
              cases ok₁ with
              | false =>
                  rcases hwhy₁ rfl with hdown | ⟨id', hmem, hdead⟩
                  · exact .inl (.append (.inl hdown))
                  · exact .inr ⟨tg, List.mem_cons_self, id', by rw [hids]; exact List.mem_cons_of_mem _ hmem, hdead⟩
              | true =>
                  rcases hwhy₂ (by simpa using h) with hdown | hdead
                  · exact .inl (.append (.inr hdown))
                  · exact .inr (hmore hdead)

/-! ### The whole of it -/

theorem sameGroup_planTablet (snap : List StorageNode) (tg : TabletGroup) : SameGroup tg (planTablet snap tg) := by
  unfold planTablet
  split
  · exact .refl tg
  · exact ⟨rfl, rfl, rfl, perm_swapFront _ _⟩

theorem sameGroups_plan (snap : List StorageNode) (tgs : List TabletGroup) :
    SameGroups tgs (tgs.map (planTablet snap)) :=
  List.forall₂_map_right_iff.mpr (List.forall₂_same.mpr (fun tg _ => sameGroup_planTablet snap tg))

/-- What a round with the groups `tgs` has done. -/
structure Round (tgs : List TabletGroup) (c : Tables) (tr : Trace sig) (ok : Bool) (c' : Tables) : Prop where
  /-- Promotions are asked for groups that have nodes. -/
  asked : ∀ e ∈ tr, ∀ n tablet, e.call = .becomePrimary n tablet → ∃ tg ∈ tgs, tg.name = tablet ∧ tg.nodeIds ≠ []
  /-- A round that is not complete stores nothing. -/
  kept : ok = false → c'.tablets = c.tablets
  /-- One that gets what it needs is complete. -/
  granted : Granted tgs c tr → ok = true
  /-- A complete one stores who has accepted. -/
  stored : ok = true → SameGroups tgs c'.tablets ∧
    ∀ tg ∈ c'.tablets, ∀ head, tg.nodeIds.head? = some head → LastOk tg.name head tr

/-- The groups that are planned are those there are. -/
theorem mem_plan {snap : List StorageNode} {tgs : List TabletGroup} {tg' : TabletGroup}
    (h : tg' ∈ tgs.map (planTablet snap)) : ∃ tg ∈ tgs, SameGroup tg tg' := by
  obtain ⟨tg, hmem, rfl⟩ := List.mem_map.mp h
  exact ⟨tg, hmem, sameGroup_planTablet snap tg⟩

/-- A node that is dead in the copy is dead in the table. -/
theorem not_alive_of_plan {snap : List StorageNode} (hsnap : SameNodes c.nodes snap) {tgs : List TabletGroup}
    (hdead : ∃ tg ∈ tgs.map (planTablet snap), ∃ id ∈ tg.nodeIds, findAlive snap id = none) :
    ¬ ∀ tg ∈ tgs, ∀ id ∈ tg.nodeIds, (findAlive c.nodes id).isSome = true := by
  intro halive
  obtain ⟨tg', hmem', id, hid, hnone⟩ := hdead
  obtain ⟨tg, hmem, -, -, -, hperm⟩ := mem_plan hmem'
  have hsome := halive tg hmem id (hperm.mem_iff.mp hid)
  rw [← isSome_findAlive_of_sameNodes hsnap, hnone] at hsome
  exact absurd hsome nofun

/-- The checks of a round fail for want of a node only. -/
theorem allAlive_of_alive {snap : List StorageNode} (hsnap : SameNodes c.nodes snap) {tgs : List TabletGroup}
    (halive : ∀ tg ∈ tgs, ∀ id ∈ tg.nodeIds, (findAlive c.nodes id).isSome = true) :
    tgs.all (allAlive snap) = true := by
  refine List.all_eq_true.mpr (fun tg hmem => List.all_eq_true.mpr (fun id hid => ?_))
  rw [isSome_findAlive_of_sameNodes hsnap]
  exact halive tg hmem id hid

/-- The rest of a round, after the promotions: the secondaries are attached, and the plan is stored
if nothing has gone wrong. -/
theorem leads_finishRound {tgs : List TabletGroup} {snap : List StorageNode} (hsnap : SameNodes c₀.nodes snap)
    (htab : c.tablets = c₀.tablets) {allOk : Bool} (hgranted : Granted tgs c₀ tr → allOk = true)
    (hasked : ∀ e ∈ tr, ∀ n tablet, e.call = .becomePrimary n tablet →
      ∃ tg ∈ tgs, tg.name = tablet ∧ tg.nodeIds ≠ [])
    (hlast : allOk = true → ∀ tg ∈ tgs.map (planTablet snap), ∀ head, tg.nodeIds.head? = some head →
      LastOk tg.name head tr) :
    Leads exec (do
      let synced ← syncAll snap (tgs.map (planTablet snap))
      if allOk && synced then
        write (.storeTablets (tgs.map (planTablet snap)))
        return true
      return false) (fun ok tr' c' => Round tgs c₀ tr' ok c') tr c := by
  refine Leads.bind ((leads_syncAll snap _).mono ?_)
  rintro synced tr' c' ⟨rfl, δ, rfl, hsilent, hwhy⟩
  have hasked' : ∀ e ∈ tr ++ δ, ∀ n tablet, e.call = .becomePrimary n tablet →
      ∃ tg ∈ tgs, tg.name = tablet ∧ tg.nodeIds ≠ [] := by
    intro e he n tablet hn
    rcases List.mem_append.mp he with he | he
    · exact hasked e he n tablet hn
    · exact absurd hn (hsilent tablet e he n)
  show Leads (S := sig) exec (if (allOk && synced) = true then _ else _) _ _ c'
  split
  · rename_i hdone
    obtain ⟨hall, -⟩ := (Bool.and_eq_true _ _).mp hdone
    refine ⟨hasked', nofun, fun _ => rfl, fun _ => ⟨sameGroups_plan snap tgs, fun tg hmem head hhead => ?_⟩⟩
    exact (hlast hall tg hmem head hhead).append (hsilent _)
  · rename_i hdone
    refine ⟨hasked', fun _ => htab, fun hgrant => ?_, nofun⟩
    have hall := hgranted hgrant.of_append
    cases synced with
    | true => exact absurd (by rw [hall]; rfl) hdone
    | false =>
        rcases hwhy rfl with hdown | hdead
        · exact absurd (.append (.inr hdown)) hgrant.requests
        · exact absurd hgrant.alive (not_alive_of_plan hsnap hdead)

/-- **A round** stores the nodes that have accepted in it, or nothing. -/
theorem leads_configureRound {tgs : List TabletGroup} (hnames : (tgs.map TabletGroup.name).Nodup) :
    Leads exec (configureRound tgs) (fun ok tr' c' => Round tgs c tr' ok c') [] c := by
  show Leads (S := sig) exec (refreshAlive c.nodes >>= fun snap => _) _ [] c
  refine Leads.bind ((calmly_refreshAlive c.nodes).mono ?_)
  rintro snap δ₁ c₁ ⟨hcalm, hsnap⟩
  obtain ⟨_, rfl, hδ₁⟩ := hcalm.trace
  refine Leads.bind ((leads_checkPorts snap _).mono ?_)
  rintro ⟨portsOk, ready⟩ tr₂ c₂ ⟨rfl, δ₂, rfl, hports, hportsOk, hready⟩
  have hquiet : ∀ e ∈ δ₁ ++ δ₂, ∀ n tablet, e.call ≠ .becomePrimary n tablet := by
    intro e he n tablet hn
    rcases List.mem_append.mp he with he | he
    · exact hδ₁ tablet e he n hn
    · obtain ⟨id, hid⟩ := hports e he
      exact absurd (hid.symm.trans hn) nofun
  cases ready with
  | false =>
      refine ⟨fun e he n tablet hn => absurd hn (hquiet e he n tablet), fun _ => hcalm.tablets, ?_, nofun⟩
      intro hgrant
      obtain ⟨e, he, hheard⟩ := hready rfl
      obtain ⟨id, hid⟩ := hports e he
      obtain ⟨pre, post, rfl⟩ := List.append_of_mem he
      refine absurd ⟨δ₁ ++ pre, e, post, id, by simp, hid, hheard, ?_⟩ hgrant.ports
      intro tablet e' he' n
      exact hquiet e' (by rw [← List.append_assoc]; exact List.mem_append_left _ he') n tablet
  | true =>
      have hnames' : ((tgs.map (planTablet snap)).map TabletGroup.name).Nodup := by
        rw [sameGroups_names (sameGroups_plan snap tgs)]
        exact hnames
      refine Leads.bind ((leads_promoteAll snap hnames').mono ?_)
      rintro promoted tr₃ c₃ ⟨rfl, δ₃, rfl, hcalls, hok, hwhy⟩
      have hasked : ∀ e ∈ δ₁ ++ δ₂ ++ δ₃, ∀ n tablet, e.call = .becomePrimary n tablet →
          ∃ tg ∈ tgs, tg.name = tablet ∧ tg.nodeIds ≠ [] := by
        intro e he n tablet hn
        rcases List.mem_append.mp he with he | he
        · exact absurd hn (hquiet e he n tablet)
        · obtain ⟨tg', hmem', hname, hne⟩ := hcalls e he n tablet hn
          obtain ⟨tg, hmem, hsame⟩ := mem_plan hmem'
          refine ⟨tg, hmem, hsame.1.symm.trans hname, fun hnil => hne ?_⟩
          exact List.Perm.eq_nil (hnil ▸ hsame.2.2.2)
      have hlast : promoted = true → ∀ tg ∈ tgs.map (planTablet snap), ∀ head,
          tg.nodeIds.head? = some head → LastOk tg.name head (δ₁ ++ δ₂ ++ δ₃) :=
        fun h tg hmem head hhead => (hok h tg hmem head hhead).prepend _
      have hgranted : Granted tgs c (δ₁ ++ δ₂ ++ δ₃) →
          (portsOk && tgs.all (allAlive snap) && promoted) = true := by
        intro hgrant
        have hports : portsOk = true := by
          by_contra hno
          rcases hportsOk (by simpa using hno) with hready | ⟨id, hid, hnone⟩
          · exact absurd hready nofun
          · obtain ⟨tg, hmem, hid⟩ := List.mem_flatMap.mp (List.mem_eraseDups.mp hid)
            have hsome := hgrant.alive tg hmem id hid
            rw [← isSome_findAlive_of_sameNodes hsnap, hnone] at hsome
            exact absurd hsome nofun
        have hpromoted : promoted = true := by
          by_contra hno
          rcases hwhy (by simpa using hno) with hdown | hdead
          · exact absurd (.append (.inr hdown)) hgrant.requests
          · exact absurd hgrant.alive (not_alive_of_plan hsnap hdead)
        rw [hports, hpromoted, allAlive_of_alive hsnap hgrant.alive]
        rfl
      show Leads (S := sig) exec (if (portsOk && tgs.all (allAlive snap) && promoted) = true then _ else _) _ _ c₃
      split
      · rename_i hall
        have hpromoted : promoted = true := ((Bool.and_eq_true _ _).mp hall).2
        refine Leads.bind ((calmly_awaitAll snap _).mono ?_)
        rintro _ tr₄ c₄ ⟨hcalm', -⟩
        obtain ⟨δ₄, rfl, hδ₄⟩ := hcalm'.trace
        refine leads_finishRound hsnap (hcalm'.tablets.trans hcalm.tablets) (fun _ => hall) ?_ ?_
        · intro e he n tablet hn
          rcases List.mem_append.mp he with he | he
          · exact hasked e he n tablet hn
          · exact absurd hn (hδ₄ tablet e he n)
        · exact fun _ tg hmem head hhead => (hlast hpromoted tg hmem head hhead).append (hδ₄ _)
      · refine leads_finishRound hsnap hcalm.tablets hgranted hasked ?_
        exact fun h => hlast ((Bool.and_eq_true _ _).mp h).2

/-! ## All rounds -/

/-- One of the next `n` rounds gets all that it needs. -/
inductive Converges (tgs : List TabletGroup) : Nat → Tables → Trace sig → Prop where
  | now {n : Nat} {c c' : Tables} {tr : Trace sig} {ok : Bool} :
      replay exec (configureRound tgs) tr c = some (ok, c') → Granted tgs c tr → Converges tgs (n + 1) c tr
  | later {n : Nat} {c c' : Tables} {tr rest : Trace sig} {ok : Bool} :
      replay exec (configureRound tgs) tr c = some (ok, c') → Converges tgs n c' rest →
      Converges tgs (n + 1) c (tr ++ rest)

/-- A round that was not complete was not the one. -/
theorem not_converges_of_round {tgs : List TabletGroup} (hnames : (tgs.map TabletGroup.name).Nodup) {n : Nat}
    {c₁ : Tables} {rest : Trace sig} (h : replay exec (configureRound tgs) tr c = some (false, c₁))
    (hrest : ¬ Converges tgs n c₁ rest) : ¬ Converges tgs (n + 1) c (tr ++ rest) := by
  intro hconv
  generalize htr : tr ++ rest = all at hconv
  cases hconv with
  | now hrun hgrant =>
      obtain ⟨rfl, rfl, -⟩ := replay_unique h hrun (htr.trans (List.append_nil all).symm)
      exact absurd (((leads_configureRound hnames).sound h).granted hgrant) nofun
  | later hrun hconv =>
      obtain ⟨rfl, -, rfl⟩ := replay_unique h hrun htr
      exact hrest (List.append_cancel_left htr ▸ hconv)

/-- **The rounds**: as one of them, or nothing is stored, and then none has got what it needs. -/
theorem replay_configureRounds {tgs : List TabletGroup} (hnames : (tgs.map TabletGroup.name).Nodup) {n : Nat}
    (h : replay exec (configureRounds tgs n) tr c = some ((), c')) :
    (∀ e ∈ tr, ∀ m tablet, e.call = .becomePrimary m tablet → ∃ tg ∈ tgs, tg.name = tablet ∧ tg.nodeIds ≠ []) ∧
      ((c'.tablets = c.tablets ∧ ¬ Converges tgs n c tr) ∨
        (SameGroups tgs c'.tablets ∧
          ∀ tg ∈ c'.tablets, ∀ head, tg.nodeIds.head? = some head → LastOk tg.name head tr)) := by
  induction n generalizing tr c with
  | zero =>
      obtain ⟨rfl, -, rfl⟩ := replay_pure h
      exact ⟨fun _ he => absurd he List.not_mem_nil, .inl ⟨rfl, nofun⟩⟩
  | succ n ih =>
      obtain ⟨tr₁, tr₂, ok, c₁, rfl, h₁, h₂⟩ := replay_bind h
      have hround : Round tgs c tr₁ ok c₁ := (leads_configureRound hnames).sound h₁
      cases ok with
      | true =>
          obtain ⟨rfl, -, rfl⟩ := replay_pure h₂
          rw [List.append_nil]
          exact ⟨hround.asked, .inr (hround.stored rfl)⟩
      | false =>
          obtain ⟨hasked, hout⟩ := ih h₂
          refine ⟨fun e he m tablet hm => ?_, ?_⟩
          · rcases List.mem_append.mp he with he | he
            · exact hround.asked e he m tablet hm
            · exact hasked e he m tablet hm
          · rcases hout with ⟨hkept, hnot⟩ | ⟨hsame, hlast⟩
            · exact .inl ⟨hkept.trans (hround.kept rfl), not_converges_of_round hnames h₁ hnot⟩
            · exact .inr ⟨hsame, fun tg hmem head hhead => (hlast tg hmem head hhead).prepend tr₁⟩

/-! ## One routine after another -/

/-- The routines that change who is primary. -/
inductive Reconfiguration where
  | configure
  | routine (r : Routine)

def Reconfiguration.prog (sort : List Candidate → List Candidate) : Reconfiguration → CoordProg Unit
  | configure => configureInitialTabletRoles
  | routine r => r.prog sort

/-- Runs of the routines, each with what came of its requests, as far as these satisfy `P`. What is
known of the nodes may change in between. -/
inductive Reconfigured (sort : List Candidate → List Candidate) (P : Tables → Reconfiguration → Trace sig → Prop)
    (c₀ : Tables) : Trace sig → Tables → Prop where
  | start : Reconfigured sort P c₀ [] c₀
  | run {tr δ : Trace sig} {c c' : Tables} (r : Reconfiguration) : Reconfigured sort P c₀ tr c → P c r δ →
      replay exec (r.prog sort) δ c = some ((), c') → Reconfigured sort P c₀ (tr ++ δ) c'
  | others {tr : Trace sig} {c c' : Tables} : Reconfigured sort P c₀ tr c → c'.tablets = c.tablets →
      Reconfigured sort P c₀ tr c'

/-- Lookups go to the nodes that were the last to accept. -/
structure RoutesToLast (c₀ : Tables) (tr : Trace sig) (c : Tables) : Prop where
  /-- Every tablet has the replicas that it was configured with. -/
  groups : SameGroups c₀.tablets c.tablets
  /-- The first of them is the one that has accepted last. -/
  first : ∀ tablet n, lastAccepted tablet none tr = some n → primaryOf c.tablets tablet = some n

/-- What a routine is told, so that lookups agree with it. The start-up has a round that gets what
it needs, or the last one to accept is at the front anyway. In a failure or a recovery the answer of
a node that accepts gets through, unless it is at the front. -/
def Told (c : Tables) : Reconfiguration → Trace sig → Prop
  | .configure, tr => Converges c.tablets 8 c tr ∨
      ∀ tablet n, lastAccepted tablet none tr = some n → primaryOf c.tablets tablet = some n
  | .routine _, tr => Answered c.tablets tr

theorem primaryOf_ne_none {l : List TabletGroup} (hnames : (l.map TabletGroup.name).Nodup) {tg : TabletGroup}
    (h : tg ∈ l) (hne : tg.nodeIds ≠ []) : primaryOf l tg.name ≠ none := by
  rw [primaryOf, groupOf_of_mem hnames h]
  exact fun hnone => hne (List.head?_eq_none_iff.mp hnone)

theorem primaryOf_eq_none {l l' : List TabletGroup} (h : SameGroups l l') {tablet : TabletName}
    (hnone : primaryOf l' tablet = none) : primaryOf l tablet = none := by
  rw [primaryOf]
  cases hgroup : groupOf l tablet with
  | none => rfl
  | some tg =>
      obtain ⟨tg', hgroup', hsame⟩ := sameGroups_groupOf h hgroup
      rw [primaryOf, hgroup'] at hnone
      have hnil : tg'.nodeIds = [] := List.head?_eq_none_iff.mp hnone
      exact List.head?_eq_none_iff.mpr (List.Perm.eq_nil (hnil ▸ hsame.2.2.2).symm)

/-- `configure_initial_tablet_roles`. -/
theorem RoutesToLast.configure (h : RoutesToLast c₀ tr c) (hnames : (c.tablets.map TabletGroup.name).Nodup)
    {δ : Trace sig} (htold : Told c .configure δ)
    (hrun : replay exec configureInitialTabletRoles δ c = some ((), c')) : RoutesToLast c₀ (tr ++ δ) c' := by
  obtain ⟨hasked, hout⟩ := replay_configureRounds hnames
    (show replay exec (configureRounds c.tablets 8) δ c = some ((), c') from hrun)
  rcases hout with ⟨hkept, hnot⟩ | ⟨hsame, hlast⟩
  · -- nothing was stored
    refine ⟨by rw [hkept]; exact h.groups, fun tablet n hn => ?_⟩
    rw [lastAccepted_append, ← Option.none_or (o := lastAccepted tablet none tr), lastAccepted_or] at hn
    rw [hkept]
    rcases Option.or_eq_some_iff.mp hn with hn | ⟨-, hn⟩
    · exact (htold.resolve_left hnot) tablet n hn
    · exact h.first tablet n hn
  · refine ⟨sameGroups_trans h.groups hsame, fun tablet n hn => ?_⟩
    rw [lastAccepted_append] at hn
    cases hprimary : primaryOf c'.tablets tablet with
    | none =>
        -- a tablet without nodes, for which nobody has been asked
        have hnone := primaryOf_eq_none hsame hprimary
        have hsilent : Silent tablet δ := by
          intro e he m hm
          obtain ⟨tg, hmem, rfl, hne⟩ := hasked e he m tablet hm
          exact primaryOf_ne_none hnames hmem hne hnone
        rw [lastAccepted_of_silent hsilent] at hn
        exact absurd ((h.first tablet n hn).symm.trans hnone) nofun
    | some head =>
        obtain ⟨tg, hgroup, hhead⟩ := Option.bind_eq_some_iff.mp hprimary
        have hname : tg.name = tablet := by simpa using List.find?_some hgroup
        rw [← hname, lastAccepted_of_lastOk (hlast tg (List.mem_of_find?_eq_some hgroup) head hhead)] at hn
        exact hn

/-- `handle_node_failure` and `handle_node_recovery`. -/
theorem RoutesToLast.routine (hsort : ∀ l, (sort l).Perm l) (h : RoutesToLast c₀ tr c)
    (hnames : (c.tablets.map TabletGroup.name).Nodup) {δ : Trace sig} {r : Routine}
    (htold : Answered c.tablets δ) (hrun : replay exec (r.prog sort) δ c = some ((), c')) :
    RoutesToLast c₀ (tr ++ δ) c' := by
  have hrouted : Routed c δ c' := by
    cases r with
    | failure dead => exact (leads_handleNodeFailure hsort hnames dead).sound hrun
    | recovery live => exact (leads_handleNodeRecovery hnames live).sound hrun
  refine ⟨sameGroups_trans h.groups hrouted.groups, fun tablet n hn => ?_⟩
  rw [lastAccepted_append] at hn
  exact (hrouted.settled tablet).primary htold (fun m hm => h.first tablet m hm) hn

/--
**Routing agrees with promotion.**

For every configuration in which no two tablets have one name, and after every run of the routines in
which each is told what it has to know.
-/
theorem routesToLast_of_reconfigured (hsort : ∀ l, (sort l).Perm l)
    (hnames : (c₀.tablets.map TabletGroup.name).Nodup) (h : Reconfigured sort Told c₀ tr c) :
    RoutesToLast c₀ tr c := by
  induction h with
  | start => exact ⟨sameGroups_refl _, nofun⟩
  | @run tr δ c c' r _ htold hrun ih =>
      have hnames' : (c.tablets.map TabletGroup.name).Nodup := by
        rw [sameGroups_names ih.groups]
        exact hnames
      cases r with
      | configure => exact ih.configure hnames' htold hrun
      | routine r => exact ih.routine hsort hnames' htold hrun
  | others _ heq ih => exact ⟨by rw [heq]; exact ih.groups, by rw [heq]; exact ih.first⟩

/-! ### Two nodes at start-up, and a third one that is down -/

/-- A round in which every request succeeds gets what it needs. -/
theorem granted_of_ok {tgs : List TabletGroup}
    (halive : ∀ tg ∈ tgs, ∀ id ∈ tg.nodeIds, (findAlive c.nodes id).isSome = true)
    (hok : ∀ e ∈ tr, (∃ n, e.call = .ping n) ∨ e.heard = .reply .ok) : Granted tgs c tr := by
  refine ⟨halive, ?_, ?_⟩
  · rintro ⟨pre, e, post, id, rfl, hcall, hfail, -⟩
    rcases hok e (List.mem_append_right _ List.mem_cons_self) with ⟨n, hn⟩ | h
    · exact absurd (hcall.symm.trans hn) nofun
    · exact hfail h
  · rintro ⟨call, hcontrol, tries, hlen, hin, hfail⟩
    obtain ⟨e, he⟩ := List.exists_mem_of_length_pos (by omega : 0 < tries.length)
    obtain ⟨rfl, hheard⟩ := hfail e he
    rcases hok e (hin.subset he) with ⟨n, hn⟩ | h
    · rw [hn] at hcontrol
      exact absurd hcontrol nofun
    · exact hheard h

namespace AtStart

/-- A node that has been heard of. -/
def node (id : NodeId) (lsn : Nat) : StorageNode :=
  { id := id, host := "local", port := 5001, lsn := lsn, processId := 7 }

def down : StorageNode := { id := [99], host := "local", port := 5003, alive := false }

def tablet (ids : List NodeId) : TabletGroup := { name := [116], rowStart := [], rowEnd := [], nodeIds := ids }

/-- The second node is ahead of the first. -/
def two (ids : List NodeId) : Tables := { nodes := [node [97] 1, node [98] 2], tablets := [tablet ids] }

/-- And a third is down. -/
def three : Tables :=
  { nodes := [node [97] 1, node [98] 2, down], tablets := [tablet [[97], [98], [99]]] }

def pong (lsn : Nat) : Outcome sig.Reply := .reply (.pong { lsn := some lsn, tabletLsns := [], pid := 7 })

/-- What comes before the secondaries: the second node is promoted. -/
def promotion : Trace sig :=
  [⟨.ping [97], pong 1, false⟩, ⟨.ping [98], pong 2, false⟩,
    ⟨.connectRepl [97], .reply .ok, false⟩, ⟨.connectRepl [98], .reply .ok, false⟩,
    ⟨.becomePrimary [98] [116], .reply .ok, false⟩]

/-- The first becomes its secondary. -/
def secondary : Trace sig :=
  [⟨.becomeSecondary [97] [98] [116], .reply .ok, false⟩, ⟨.addReplica [98] [97] [116], .reply .ok, false⟩]

/-- The round of the two nodes. -/
def complete : Trace sig := promotion ++ ⟨.connectRepl [98], .reply .ok, false⟩ :: secondary

/-- A round with the third. -/
def incomplete : Trace sig := promotion ++ secondary

theorem replay_complete :
    replay exec (configureRound (two [[97], [98]]).tablets) complete (two [[97], [98]]) =
      some (true, two [[98], [97]]) := rfl

theorem replay_incomplete : replay exec (configureRound three.tablets) incomplete three = some (false, three) := rfl

theorem replay_rounds (n : Nat) :
    replay exec (configureRounds three.tablets n) (List.replicate n incomplete).flatten three =
      some ((), three) := by
  induction n with
  | zero => rfl
  | succ n ih =>
      rw [List.replicate_succ, List.flatten_cons]
      exact replay_bind_of replay_incomplete ih

theorem granted : Granted (two [[97], [98]]).tablets (two [[97], [98]]) complete := by
  refine granted_of_ok (by decide) (List.forall_mem_cons.mpr ⟨.inl ⟨_, rfl⟩, ?_⟩)
  refine List.forall_mem_cons.mpr ⟨.inl ⟨_, rfl⟩, ?_⟩
  simp [secondary]

end AtStart

/-- A start-up that swaps the two nodes. -/
theorem routesToLast_of_reconfigured_two :
    RoutesToLast (AtStart.two [[97], [98]]) AtStart.complete (AtStart.two [[98], [97]]) := by
  have hrun : replay exec configureInitialTabletRoles AtStart.complete (AtStart.two [[97], [98]]) =
      some ((), AtStart.two [[98], [97]]) := rfl
  have hconf : Reconfigured id Told (AtStart.two [[97], [98]]) ([] ++ AtStart.complete) (AtStart.two [[98], [97]]) :=
    .run .configure .start (.inl (.now AtStart.replay_complete AtStart.granted)) hrun
  exact routesToLast_of_reconfigured (fun l => List.Perm.refl l) (by decide) hconf

/-- With the third node down no round is complete, and the node that has accepted eight times is not
the one that is looked up. -/
theorem not_routesToLast_three :
    ¬ ∀ (sort : List Candidate → List Candidate) (c₀ c : Tables) (tr : Trace sig), (∀ l, (sort l).Perm l) →
      Reconfigured sort (fun _ _ _ => True) c₀ tr c → RoutesToLast c₀ tr c := by
  intro h
  have hrun : Reconfigured id (fun _ _ _ => True) AtStart.three
      ([] ++ (List.replicate 8 AtStart.incomplete).flatten) AtStart.three :=
    .run .configure .start trivial (AtStart.replay_rounds 8)
  have hfirst := (h id _ _ _ (fun l => List.Perm.refl l) hrun).first [116] [98] rfl
  exact absurd hfirst (by decide)

end NCloud.Coordinator
