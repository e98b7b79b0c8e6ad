import NCloud.Coordinator.Promotion

/-!
# Elections

`handle_node_failure` for a tablet that has lost its primary. The candidates are the
other nodes of the group that are believed alive. Each is probed again, and its
followers with it, and the largest LSN seen is raised as the answers come in. Only then
is a node asked to become primary, and only one whose own answer was not below that
mark.

The mark starts at what was known of every node of the group when the plan was made,
the dead one included. So whoever is asked is not behind anything that the plan knew or
that the election's own probes reported (`Fresh`), and who accepts is swapped to the front
(`Election`).

Two things are not covered. The plans of one call are all made at its start: what the
election of one tablet brings in about another is cached but not looked at again. And
tablets go by their names: the requests carry a name, and the new order is written to the
first tablet of that name. `not_safe_twoElections` shows both.
-/

namespace NCloud.Coordinator

open Process Wire

variable {c c' c₀ : Tables} {tr : Trace sig} {tablet : TabletName}

/-! ## What probes report -/

/-- The LSN that an answered probe reports, read into the copy of the node's entry. -/
def reported (nodes : List StorageNode) (tablet : TabletName) (e : Exchange sig) : Option (NodeId × Nat) :=
  match e.call, e.heard with
  | .ping n, .reply (.pong info) => (find nodes n).map (fun x => (n, (x.refreshed info).tabletLsn tablet))
  | _, _ => none

/-- No probe reports more than `m`. -/
def Within (nodes : List StorageNode) (tablet : TabletName) (tr : Trace sig) (m : Nat) : Prop :=
  ∀ e ∈ tr, ∀ n lsn, reported nodes tablet e = some (n, lsn) → lsn ≤ m

/-- A node that may be promoted, going by the answers in `tr`. -/
structure Fresh (nodes : List StorageNode) (dead : NodeId) (tg : TabletGroup) (tr : Trace sig) (w : NodeId) :
    Prop where
  /-- It is in the replica list. -/
  member : w ∈ tg.nodeIds
  /-- It is not the node that failed. -/
  alive : w ≠ dead
  /-- It has answered, and with an LSN that no node of the group was above by `nodes`, the
  table of the plans, and that nobody who was asked is above. -/
  upToDate : ∃ lsn, (∃ e ∈ tr, reported nodes tg.name e = some (w, lsn)) ∧
    (∀ n ∈ tg.nodeIds, ∀ x, find nodes n = some x → x.tabletLsn tg.name ≤ lsn) ∧
    Within nodes tg.name tr lsn

theorem reported_of_not_ping {nodes : List StorageNode} {e : Exchange sig} (h : ∀ n, e.call ≠ .ping n) :
    reported nodes tablet e = none := by
  unfold reported
  split
  · rename_i n info hcall _
    exact absurd hcall (h n)
  · rfl

theorem within_nil (nodes : List StorageNode) (tablet : TabletName) (m : Nat) : Within nodes tablet [] m :=
  fun _ he => absurd he List.not_mem_nil

theorem Within.append {nodes : List StorageNode} {tr' : Trace sig} {m : Nat} (h : Within nodes tablet tr m)
    (h' : Within nodes tablet tr' m) : Within nodes tablet (tr ++ tr') m := by
  intro e he
  rcases List.mem_append.mp he with he | he
  · exact h e he
  · exact h' e he

theorem Within.mono {nodes : List StorageNode} {m m' : Nat} (h : Within nodes tablet tr m) (hm : m ≤ m') :
    Within nodes tablet tr m' :=
  fun e he n lsn hrep => Nat.le_trans (h e he n lsn hrep) hm

theorem within_of_not_ping {nodes : List StorageNode} (h : ∀ e ∈ tr, ∀ n, e.call ≠ .ping n) (m : Nat) :
    Within nodes tablet tr m := by
  intro e he n lsn hrep
  rw [reported_of_not_ping (h e he)] at hrep
  exact absurd hrep (by simp)

/-- One probe. -/
theorem replay_refreshAndCache {node : StorageNode} (hcopy : Copy c₀ node) {o : Option StorageNode}
    (h : replay exec (refreshAndCache node) tr c = some (o, c')) :
    (o = none ∧ ∀ tablet m, Within c₀.nodes tablet tr m) ∨
      ∃ f e, o = some f ∧ f.id = node.id ∧ tr = [e] ∧
        ∀ tablet, reported c₀.nodes tablet e = some (node.id, f.tabletLsn tablet) := by
  obtain ⟨tr₁, tr₂, o₁, c₁, rfl, h₁, h₂⟩ := replay_bind h
  obtain ⟨tr₃, tr₄, heard, c₂, rfl, h₃, h₄⟩ := replay_bind h₁
  obtain ⟨silent, rfl, rfl⟩ := replay_request h₃
  -- an answer that is no `+PONG` counts as none
  have hother : (∀ info, heard ≠ .reply (.pong info)) → o₁ = none → tr₄ = [] →
      o = none ∧ ∀ tablet m, Within c₀.nodes tablet ([⟨.ping node.id, heard, silent⟩] ++ tr₄ ++ tr₂) m := by
    rintro hno rfl rfl
    obtain ⟨rfl, rfl, -⟩ := replay_pure h₂
    refine ⟨rfl, fun tablet m e he n lsn hrep => ?_⟩
    obtain rfl := List.mem_singleton.mp he
    unfold reported at hrep
    split at hrep
    · rename_i heq
      exact absurd heq (hno _)
    · exact absurd hrep (by simp)
  cases heard with
  | reply r =>
      cases r with
      | pong info =>
          obtain ⟨rfl, rfl, rfl⟩ := replay_pure h₄
          refine .inr ⟨node.refreshed info, ⟨.ping node.id, .reply (.pong info), silent⟩, ?_, rfl, ?_, ?_⟩
          · obtain ⟨tr₅, tr₆, _, c₄, rfl, h₅, h₆⟩ := replay_bind h₂
            exact (replay_pure h₆).2.1
          · obtain ⟨tr₅, tr₆, _, c₄, rfl, h₅, h₆⟩ := replay_bind h₂
            obtain ⟨rfl, -, -⟩ := replay_pure h₆
            obtain rfl : tr₅ = [] := (replay_pure h₅).1
            rfl
          · intro tablet
            show (find c₀.nodes node.id).map (fun x => (node.id, (x.refreshed info).tabletLsn tablet)) = _
            rw [show find c₀.nodes node.id = some node from hcopy]
            rfl
      | ok =>
          obtain ⟨rfl, rfl, rfl⟩ := replay_pure h₄
          exact .inl (hother nofun rfl rfl)
      | err =>
          obtain ⟨rfl, rfl, rfl⟩ := replay_pure h₄
          exact .inl (hother nofun rfl rfl)
  | refused =>
      obtain ⟨rfl, rfl, rfl⟩ := replay_pure h₄
      exact .inl (hother nofun rfl rfl)
  | sendFailed =>
      obtain ⟨rfl, rfl, rfl⟩ := replay_pure h₄
      exact .inl (hother nofun rfl rfl)
  | noReply =>
      obtain ⟨rfl, rfl, rfl⟩ := replay_pure h₄
      exact .inl (hother nofun rfl rfl)

theorem within_single {e : Exchange sig} {nodes : List StorageNode} {n : NodeId} {lsn m : Nat}
    (h : reported nodes tablet e = some (n, lsn)) (hm : lsn ≤ m) : Within nodes tablet [e] m := by
  intro e' he' n' lsn' hrep
  rw [List.mem_singleton.mp he', h] at hrep
  obtain ⟨rfl, rfl⟩ := Prod.mk.inj (Option.some.inj hrep)
  exact hm

/-- The probes of followers report no more than the followers that are left have. -/
theorem within_refreshFollowers {fs fs' : List StorageNode} (hcopy : ∀ f ∈ fs, Copy c₀ f)
    (h : replay exec (refreshFollowers fs) tr c = some (fs', c')) {m : Nat}
    (hm : ∀ f ∈ fs', f.tabletLsn tablet ≤ m) : Within c₀.nodes tablet tr m := by
  induction fs generalizing tr c c' fs' with
  | nil =>
      obtain ⟨rfl, -, -⟩ := replay_pure h
      exact within_nil _ _ _
  | cons f fs ih =>
      have hrest := fun f' hf' => hcopy f' (List.mem_cons_of_mem f hf')
      obtain ⟨tr₁, tr₂, o, c₁, rfl, h₁, h₂⟩ := replay_bind h
      rcases replay_refreshAndCache (hcopy f List.mem_cons_self) h₁ with ⟨rfl, hw⟩ | ⟨f', e, rfl, hid, rfl, hrep⟩
      · exact (hw tablet m).append (ih hrest h₂ hm)
      · obtain ⟨tr₃, tr₄, fs₁, c₂, rfl, h₃, h₄⟩ := replay_bind h₂
        obtain ⟨rfl, rfl, -⟩ := replay_pure h₄
        obtain ⟨hf', hm'⟩ := List.forall_mem_cons.mp hm
        rw [List.append_nil]
        exact (within_single (hrep tablet) hf').append (ih hrest h₃ hm')

/-- **The mark is above every answer**, and every candidate that is left has answered. -/
theorem replay_refreshCandidates {cs cs' : List Candidate} {m m' : Nat}
    (hcopy : ∀ cand ∈ cs, Copy c₀ cand.primary ∧ ∀ f ∈ cand.followers, Copy c₀ f)
    (h : replay exec (refreshCandidates tablet cs m) tr c = some ((cs', m'), c')) :
    m ≤ m' ∧ Within c₀.nodes tablet tr m' ∧
      ∀ cand ∈ cs', (∃ cand₀ ∈ cs, cand.primary.id = cand₀.primary.id) ∧
        ∃ e ∈ tr, reported c₀.nodes tablet e = some (cand.primary.id, cand.lsn) := by
  induction cs generalizing tr c c' cs' m with
  | nil =>
      obtain ⟨rfl, heq, -⟩ := replay_pure h
      obtain ⟨rfl, rfl⟩ := Prod.mk.inj heq
      exact ⟨Nat.le_refl _, within_nil _ _ _, nofun⟩
  | cons cand cs ih =>
      have hrest := fun cand' hmem => hcopy cand' (List.mem_cons_of_mem cand hmem)
      obtain ⟨hprimary, hfollowers⟩ := hcopy cand List.mem_cons_self
      obtain ⟨tr₁, tr₂, o, c₁, rfl, h₁, h₂⟩ := replay_bind h
      rcases replay_refreshAndCache hprimary h₁ with ⟨rfl, hw⟩ | ⟨p, e, rfl, hid, rfl, hrep⟩
      · obtain ⟨hle, hwithin, hleft⟩ := ih hrest h₂
        refine ⟨hle, (hw tablet m').append hwithin, fun cand' hcand' => ?_⟩
        obtain ⟨⟨cand₀, hmem, hid⟩, e, he, hrep⟩ := hleft cand' hcand'
        exact ⟨⟨cand₀, List.mem_cons_of_mem _ hmem, hid⟩, e, List.mem_append_right _ he, hrep⟩
      · obtain ⟨tr₃, tr₄, fs, c₂, rfl, h₃, h₄⟩ := replay_bind h₂
        obtain ⟨tr₅, tr₆, ⟨cs₁, m₁⟩, c₃, rfl, h₅, h₆⟩ := replay_bind h₄
        obtain ⟨rfl, heq, -⟩ := replay_pure h₆
        obtain ⟨rfl, rfl⟩ := Prod.mk.inj heq
        obtain ⟨hle, hwithin, hleft⟩ := ih hrest h₅
        obtain ⟨hmax, hfs⟩ := maxLsn_le_iff.mp hle
        obtain ⟨hm, hp⟩ := Nat.max_le.mp hmax
        refine ⟨hm, ?_, ?_⟩
        · rw [List.append_nil]
          exact (within_single (hrep tablet) hp).append
            ((within_refreshFollowers hfollowers h₃ hfs).append hwithin)
        · intro cand' hcand'
          rcases List.mem_cons.mp hcand' with rfl | hcand'
          · refine ⟨⟨cand, List.mem_cons_self, hid⟩, e, by simp, ?_⟩
            rw [hrep, hid]
          · obtain ⟨⟨cand₀, hmem, hid'⟩, e', he', hrep'⟩ := hleft cand' hcand'
            exact ⟨⟨cand₀, List.mem_cons_of_mem _ hmem, hid'⟩, e', by simp [he'], hrep'⟩

/-! ## One election -/

/-- A run of something calm. -/
theorem Calmly.of_replay {α : Type} {p : CoordProg α} {Q : α → Prop} {a : α} (h : Calmly p Q [] c)
    (hrun : replay exec p tr c = some (a, c')) :
    c'.tablets = c.tablets ∧ c'.nodes.map StorageNode.id = c.nodes.map StorageNode.id ∧
      (∀ tablet, Silent tablet tr) ∧ Q a := by
  obtain ⟨hcalm, hq⟩ := h.sound hrun
  obtain ⟨δ, hδ, hsilent⟩ := hcalm.trace
  rw [List.nil_append, List.nil_append] at hδ
  exact ⟨hcalm.tablets, hcalm.ids, hδ ▸ hsilent, hq⟩

/-- Attaching followers probes nobody. -/
theorem only_attempts {call : Call} {C : Call → Prop} (h : C call) (n : Nat) :
    Prog.Only (S := sig) (fun _ => False) C (attempts call n) := by
  induction n with
  | zero => trivial
  | succ n ih =>
      refine ⟨h, fun o => ?_⟩
      cases o with
      | reply r =>
          cases r with
          | ok => trivial
          | _ => exact ih
      | _ => exact ih

theorem only_attachFollowers (primary : NodeId) (tablet : TabletName) (fs : List StorageNode) :
    Prog.Only (S := sig) (fun _ => False) (fun call => ∀ n, call ≠ Call.ping n)
      (attachFollowers primary tablet fs) := by
  induction fs with
  | nil => trivial
  | cons f fs ih =>
      have hdemote : ∀ n, Call.becomeSecondary f.id primary tablet ≠ .ping n := nofun
      have hadd : ∀ n, Call.addReplica primary f.id tablet ≠ .ping n := nofun
      refine Prog.Only.bind (only_attempts hdemote 3) (fun ok => ?_)
      cases ok with
      | false => exact ih
      | true => exact Prog.Only.bind (only_attempts hadd 3) (fun _ => ih)

theorem not_ping_attachFollowers {primary : NodeId} {fs : List StorageNode}
    (h : replay exec (attachFollowers primary tablet fs) tr c = some ((), c')) :
    ∀ e ∈ tr, ∀ n, e.call ≠ .ping n := by
  have hleads : Leads exec (attachFollowers primary tablet fs)
      (fun _ tr _ => ∀ e ∈ tr, ∀ n, e.call ≠ Call.ping n) [] c := by
    refine Leads.of_only (T := fun tr _ => ∀ e ∈ tr, ∀ n, e.call ≠ Call.ping n)
      (fun _ _ _ hf => absurd hf id) ?_ (only_attachFollowers primary tablet fs)
      (fun _ he => absurd he List.not_mem_nil)
    intro call o silent tr s hcall htr e he
    rcases List.mem_append.mp he with he | he
    · exact htr e he
    · rw [List.mem_singleton.mp he]
      exact hcall
  exact hleads.sound h

/-- What an election of `tg` has done, with the groups `l` before it and `l'` after. -/
structure Election (nodes : List StorageNode) (dead : NodeId) (tg : TabletGroup) (tr : Trace sig)
    (l l' : List TabletGroup) : Prop where
  /-- Whoever is asked may be promoted. -/
  asked : ∀ e ∈ tr, ∀ w, e.call = .becomePrimary w tg.name → Fresh nodes dead tg tr w
  /-- Nobody is asked for another tablet. -/
  only : OnlyFor tg.name tr
  /-- Nobody accepts and nothing is stored, or one node does and is swapped to the front. -/
  outcome : ((∀ e ∈ tr, ∀ w, e.call = .becomePrimary w tg.name → e.heard ≠ .reply .ok) ∧ l' = l) ∨
    ∃ w, LastOk tg.name w tr ∧ w ∈ tg.nodeIds ∧
      (∀ e ∈ tr, ∀ n, e.call = .becomePrimary n tg.name → e.heard = .reply .ok → n = w) ∧
      l' = setPrimary tg.name w l

theorem failurePlan_cases {sort : List Candidate → List Candidate} (hsort : ∀ l, (sort l).Perm l)
    {nodes : List StorageNode} {dead : NodeId} {tg : TabletGroup} {plan : FailurePlan}
    (h : failurePlan sort nodes dead tg = some plan) :
    plan.tablet = tg.name ∧ plan.maxKnown = tabletMaxKnownLsn nodes tg ∧
      ∀ cand ∈ plan.candidates, cand.primary.id ∈ tg.nodeIds ∧ cand.primary.id ≠ dead ∧
        find nodes cand.primary.id = some cand.primary := by
  unfold failurePlan at h
  split at h
  · exact absurd h (by simp)
  · split at h
    · exact absurd h (by simp)
    · split at h
      · exact absurd h (by simp)
      · obtain rfl := Option.some.inj h
        refine ⟨rfl, rfl, fun cand hcand => ?_⟩
        obtain ⟨n, hn, rfl⟩ := List.mem_map.mp ((hsort _).mem_iff.mp hcand)
        obtain ⟨hid, hfind⟩ := mem_aliveIn hn
        obtain ⟨x, hx, hxn⟩ := List.mem_filterMap.mp hn
        rw [id_of_find (find_of_findAlive hxn).1] at *
        exact ⟨hid, by simpa using (List.mem_filter.mp hx).2, hfind⟩

/-- The end of an election: its followers are attached and the winner is stored. -/
theorem replay_storeWinner {w : Candidate}
    (hw : w.primary.id ∈ c.nodes.map StorageNode.id)
    (h : replay exec (do
      attachFollowers w.primary.id tablet w.followers
      write (.storeWinner tablet w.primary.id)) tr c = some ((), c')) :
    (∀ e ∈ tr, ∀ n, e.call ≠ .ping n) ∧ (∀ tablet', Silent tablet' tr) ∧
      c'.tablets = setPrimary tablet w.primary.id c.tablets ∧
      c'.nodes.map StorageNode.id = c.nodes.map StorageNode.id := by
  obtain ⟨tr₁, tr₂, _, c₁, rfl, h₁, h₂⟩ := replay_bind h
  obtain ⟨htab, hids, hsilent, -⟩ := (calmly_attachFollowers w.primary.id tablet w.followers).of_replay h₁
  obtain ⟨rfl, -, rfl⟩ := replay_pure (show replay exec (pure ()) tr₂
    (exec (.storeWinner tablet w.primary.id) c₁).2 = some ((), c') from h₂)
  have hfind : (find c₁.nodes w.primary.id).isSome = true := by
    rw [find_isSome_iff, hids]
    exact hw
  have hexec : (exec (.storeWinner tablet w.primary.id) c₁).2 =
      ({ c₁ with tablets := setPrimary tablet w.primary.id c₁.tablets } : Tables).update w.primary.id
        (fun e => { e with alive := true }) := if_pos hfind
  rw [List.append_nil, hexec]
  refine ⟨not_ping_attachFollowers h₁, hsilent, ?_, ?_⟩
  · show setPrimary tablet w.primary.id c₁.tablets = _
    rw [htab]
  · exact (ids_update (f := fun e => { e with alive := true }) _ _ (fun _ => rfl)).trans hids

/-- **An election is safe.** -/
theorem election_of_replay {sort : List Candidate → List Candidate} (hsort : ∀ l, (sort l).Perm l)
    {dead : NodeId} {tg : TabletGroup} {plan : FailurePlan} (hplan : failurePlan sort c₀.nodes dead tg = some plan)
    (hids : c.nodes.map StorageNode.id = c₀.nodes.map StorageNode.id)
    (h : replay exec (elect sort plan) tr c = some ((), c')) :
    Election c₀.nodes dead tg tr c.tablets c'.tablets ∧
      c'.nodes.map StorageNode.id = c.nodes.map StorageNode.id := by
  obtain ⟨hname, hknown, hcands⟩ := failurePlan_cases hsort hplan
  obtain ⟨tr₁, tr₂, ⟨cs, m⟩, c₁, rfl, h₁, h₂⟩ := replay_bind h
  obtain ⟨tr₃, tr₄, o, c₂, rfl, h₃, h₄⟩ := replay_bind h₂
  obtain ⟨hle, hwithin, hleft⟩ := replay_refreshCandidates (copy_of_failurePlan hsort hplan) h₁
  obtain ⟨htab, hids₁, hsilent₁, -⟩ :=
    (calmly_refreshCandidates plan.tablet plan.candidates plan.maxKnown).of_replay h₁
  have hpick := @leads_pickWinner c₁ [] plan.tablet m (sort cs)
  obtain ⟨rfl, δ, hδ, hasked, hnone, hsome⟩ := hpick.sound h₃
  obtain rfl : tr₃ = δ := List.append_cancel_left hδ
  rw [hname] at hwithin hleft hasked hsome h₄
  rw [hknown, tabletMaxKnownLsn_le_iff] at hle
  have hnoping : ∀ e ∈ tr₃, ∀ n, e.call ≠ .ping n := by
    intro e he n hcall
    obtain ⟨cand, -, -, heq⟩ := hasked e he
    exact absurd (heq.symm.trans hcall) (by simp)
  -- a node that is asked, whatever follows
  have hfresh : (∀ e ∈ tr₄, ∀ n, e.call ≠ .ping n) → ∀ e ∈ tr₃, ∀ w, e.call = .becomePrimary w tg.name →
      Fresh c₀.nodes dead tg (tr₁ ++ (tr₃ ++ tr₄)) w := by
    intro hquiet e he w hcall
    obtain ⟨cand, hcand, hm, heq⟩ := hasked e he
    obtain rfl := (Call.becomePrimary.inj (heq.symm.trans hcall)).1
    obtain ⟨⟨cand₀, hmem, hid⟩, e', he', hrep⟩ := hleft cand ((hsort cs).mem_iff.mp hcand)
    obtain ⟨hgroup, halive, -⟩ := hcands cand₀ hmem
    refine ⟨hid ▸ hgroup, hid ▸ halive, cand.lsn, ⟨e', List.mem_append_left _ he', hrep⟩, ?_, ?_⟩
    · exact fun n hn x hx => Nat.le_trans (hle n hn x hx) hm
    · exact (hwithin.mono hm).append ((within_of_not_ping hnoping _).append (within_of_not_ping hquiet _))
  have honly₃ : OnlyFor tg.name tr₃ := by
    intro e he n tablet' hcall
    obtain ⟨cand, -, -, heq⟩ := hasked e he
    exact (Call.becomePrimary.inj (heq.symm.trans hcall)).2.symm
  -- a promotion is asked for in the middle part only
  have hpart : (∀ tablet', Silent tablet' tr₄) → ∀ e ∈ tr₁ ++ (tr₃ ++ tr₄), ∀ w,
      e.call = .becomePrimary w tg.name → e ∈ tr₃ := by
    intro hsilent e he w hcall
    rcases List.mem_append.mp he with he | he
    · exact absurd hcall (hsilent₁ _ e he w)
    · rcases List.mem_append.mp he with he | he
      · exact he
      · exact absurd hcall (hsilent _ e he w)
  cases o with
  | none =>
      obtain ⟨rfl, -, rfl⟩ := replay_pure h₄
      have hsilent : ∀ tablet', Silent tablet' ([] : Trace sig) := fun _ _ he => absurd he List.not_mem_nil
      have hquiet : ∀ e ∈ ([] : Trace sig), ∀ n, e.call ≠ .ping n := fun _ he => absurd he List.not_mem_nil
      refine ⟨⟨?_, ?_, .inl ⟨?_, htab⟩⟩, hids₁⟩
      · exact fun e he w hcall => hfresh hquiet e (hpart hsilent e he w hcall) w hcall
      · exact (onlyFor_of_silent _ hsilent₁).append (honly₃.append (onlyFor_of_silent _ hsilent))
      · exact fun e he w hcall => hnone rfl e (hpart hsilent e he w hcall)
  | some w =>
      obtain ⟨hmem, hlast, hwon⟩ := hsome w rfl
      obtain ⟨⟨cand₀, hcand₀, hid⟩, -⟩ := hleft w ((hsort cs).mem_iff.mp hmem)
      obtain ⟨hgroup, -, hfind⟩ := hcands cand₀ hcand₀
      have hw : w.primary.id ∈ c₂.nodes.map StorageNode.id := by
        rw [hids₁, hids, hid, ← find_isSome_iff, hfind]
        rfl
      obtain ⟨hquiet, hsilent, htab', hids'⟩ := replay_storeWinner hw h₄
      refine ⟨⟨?_, ?_, .inr ⟨w.primary.id, ?_, hid ▸ hgroup, ?_, ?_⟩⟩, hids'.trans hids₁⟩
      · exact fun e he w hcall => hfresh hquiet e (hpart hsilent e he w hcall) w hcall
      · exact (onlyFor_of_silent _ hsilent₁).append (honly₃.append (onlyFor_of_silent _ hsilent))
      · exact (hlast.append (hsilent _)).prepend tr₁
      · intro e he n hcall hok
        have heq := hwon e (hpart hsilent e he n hcall) hok
        exact (Call.becomePrimary.inj (hcall.symm.trans heq)).1
      · rw [htab', htab]

/-! ## All of them -/

/-- What leaves a tablet alone. -/
structure Aside (tablet : TabletName) (tr : Trace sig) (c c' : Tables) : Prop where
  silent : Silent tablet tr
  group : groupOf c'.tablets tablet = groupOf c.tablets tablet
  ids : c'.nodes.map StorageNode.id = c.nodes.map StorageNode.id

theorem Aside.refl (tablet : TabletName) (c : Tables) : Aside tablet [] c c :=
  ⟨fun _ he => absurd he List.not_mem_nil, rfl, rfl⟩

theorem Aside.trans {tr₁ tr₂ : Trace sig} {c₁ c₂ c₃ : Tables} (h₁ : Aside tablet tr₁ c₁ c₂)
    (h₂ : Aside tablet tr₂ c₂ c₃) : Aside tablet (tr₁ ++ tr₂) c₁ c₃ :=
  ⟨h₁.silent.append h₂.silent, h₂.group.trans h₁.group, h₂.ids.trans h₁.ids⟩

theorem Calmly.aside {α : Type} {p : CoordProg α} {Q : α → Prop} {a : α} (h : Calmly p Q [] c)
    (hrun : replay exec p tr c = some (a, c')) : Aside tablet tr c c' := by
  obtain ⟨htab, hids, hsilent, -⟩ := h.of_replay hrun
  exact ⟨hsilent tablet, by rw [htab], hids⟩

theorem aside_promoteNode {w : NodeId} {tablet' : TabletName} (hne : tablet ≠ tablet') {ok : Bool}
    (h : replay exec (promoteNode w tablet') tr c = some (ok, c')) : Aside tablet tr c c' := by
  have hpromote := @leads_promoteNode c [] w tablet'
  obtain ⟨rfl, δ, hδ, honly, -⟩ := hpromote.sound h
  obtain rfl : tr = δ := List.append_cancel_left hδ
  exact ⟨honly.silent hne, rfl, rfl⟩

theorem aside_rebuild {plan : RebuildPlan} (hne : tablet ≠ plan.tablet)
    (h : replay exec (rebuild plan) tr c = some ((), c')) : Aside tablet tr c c' := by
  obtain ⟨tr₁, tr₂, o, c₁, rfl, h₁, h₂⟩ := replay_bind h
  refine ((calmly_refreshAndCache plan.primary).aside h₁).trans ?_
  cases o with
  | none =>
      obtain ⟨rfl, -, rfl⟩ := replay_pure h₂
      exact .refl tablet _
  | some p =>
      obtain ⟨tr₃, tr₄, fs, c₂, rfl, h₃, h₄⟩ := replay_bind h₂
      obtain ⟨tr₅, tr₆, _, c₃, rfl, h₅, h₆⟩ := replay_bind h₄
      refine ((calmly_refreshFollowers plan.followers).aside h₃).trans (Aside.trans ?_
        ((calmly_markAlive p.id).aside h₆))
      obtain ⟨tr₇, tr₈, ok, c₄, rfl, h₇, h₈⟩ := replay_bind h₅
      refine (aside_promoteNode hne h₇).trans ?_
      cases ok with
      | false =>
          obtain ⟨rfl, -, rfl⟩ := replay_pure h₈
          exact .refl tablet _
      | true => exact (calmly_attachFollowers p.id plan.tablet fs).aside h₈

theorem aside_elect {sort : List Candidate → List Candidate} (hsort : ∀ l, (sort l).Perm l)
    {dead : NodeId} {tg : TabletGroup} {plan : FailurePlan} (hplan : failurePlan sort c₀.nodes dead tg = some plan)
    (hids : c.nodes.map StorageNode.id = c₀.nodes.map StorageNode.id) (hne : tablet ≠ tg.name)
    (h : replay exec (elect sort plan) tr c = some ((), c')) : Aside tablet tr c c' := by
  obtain ⟨hel, hids'⟩ := election_of_replay hsort hplan hids h
  refine ⟨hel.only.silent hne, ?_, hids'⟩
  rcases hel.outcome with ⟨-, hsame⟩ | ⟨w, -, -, -, hset⟩
  · rw [hsame]
  · rw [hset, groupOf_setPrimary, if_neg hne]

/-- The plans of other tablets, one after the other. -/
theorem aside_each {β : Type} {f : β → CoordProg Unit} {l : List β}
    (hf : ∀ x ∈ l, ∀ tr c c', c.nodes.map StorageNode.id = c₀.nodes.map StorageNode.id →
      replay exec (f x) tr c = some ((), c') → Aside tablet tr c c')
    (hids : c.nodes.map StorageNode.id = c₀.nodes.map StorageNode.id)
    (h : replay exec (each f l) tr c = some ((), c')) : Aside tablet tr c c' := by
  induction l generalizing tr c with
  | nil =>
      obtain ⟨rfl, -, rfl⟩ := replay_pure h
      exact .refl tablet _
  | cons x l ih =>
      obtain ⟨tr₁, tr₂, _, c₁, rfl, h₁, h₂⟩ := replay_bind h
      have hone := hf x List.mem_cons_self tr₁ c c₁ hids h₁
      exact hone.trans (ih (fun y hy => hf y (List.mem_cons_of_mem _ hy)) (hone.ids.trans hids) h₂)

theorem replay_each_append {β : Type} {f : β → CoordProg Unit} {l₁ l₂ : List β}
    (h : replay exec (each f (l₁ ++ l₂)) tr c = some ((), c')) :
    ∃ tr₁ tr₂ c₁, tr = tr₁ ++ tr₂ ∧ replay exec (each f l₁) tr₁ c = some ((), c₁) ∧
      replay exec (each f l₂) tr₂ c₁ = some ((), c') := by
  induction l₁ generalizing tr c with
  | nil => exact ⟨[], tr, c, rfl, rfl, h⟩
  | cons x l₁ ih =>
      obtain ⟨tr₁, tr₂, _, c₁, rfl, h₁, h₂⟩ := replay_bind h
      obtain ⟨tr₃, tr₄, c₂, rfl, h₃, h₄⟩ := ih h₂
      refine ⟨tr₁ ++ tr₃, tr₄, c₂, (List.append_assoc _ _ _).symm, ?_, h₄⟩
      exact replay_bind_of h₁ h₃

/-- The node that failed was the primary, or the primary is not believed alive. -/
def LosesPrimary (nodes : List StorageNode) (dead : NodeId) (tg : TabletGroup) : Prop :=
  dead ∈ tg.nodeIds ∧ ∀ head, tg.nodeIds.head? = some head → head = dead ∨ findAlive nodes head = none

theorem rebuildPlan_of_losesPrimary {nodes : List StorageNode} {dead : NodeId} {tg : TabletGroup}
    (h : LosesPrimary nodes dead tg) : rebuildPlan nodes dead tg = none := by
  unfold rebuildPlan
  split
  · rfl
  · rename_i head rest hids
    split
    · rfl
    · rename_i hno
      rcases h.2 head (by rw [hids]; rfl) with heq | hdead
      · exact absurd (Or.inr heq) hno
      · rw [hdead]
        rfl

theorem tablet_of_rebuildPlan {nodes : List StorageNode} {dead : NodeId} {tg : TabletGroup} {plan : RebuildPlan}
    (h : rebuildPlan nodes dead tg = some plan) : plan.tablet = tg.name := by
  unfold rebuildPlan at h
  split at h
  · exact absurd h (by simp)
  · split at h
    · exact absurd h (by simp)
    · obtain ⟨p, -, rfl⟩ := Option.map_eq_some_iff.mp h
      rfl

/-- The elections of other tablets. -/
theorem aside_elections {sort : List Candidate → List Candidate} (hsort : ∀ l, (sort l).Perm l) {dead : NodeId}
    {l : List TabletGroup} (hne : ∀ tg ∈ l, tablet ≠ tg.name)
    (hids : c.nodes.map StorageNode.id = c₀.nodes.map StorageNode.id)
    (h : replay exec (each (elect sort) (l.filterMap (failurePlan sort c₀.nodes dead))) tr c = some ((), c')) :
    Aside tablet tr c c' := by
  refine aside_each ?_ hids h
  intro plan hplan tr c c' hids h
  obtain ⟨tg, htg, hplan⟩ := List.mem_filterMap.mp hplan
  exact aside_elect hsort hplan hids (hne tg htg) h

/--
**Election safety.**

Whatever the tables hold, whoever failed and whatever the nodes answer: for a tablet
that has lost its primary either nobody is asked, or there is one election, outside of
which nobody is asked for this tablet. In it only nodes are asked that are in the
replica list, are not the failed one, and have answered a probe of this election. The LSN
that they answered with is not below any that was known of a node of the group when
`handle_node_failure` made its plans, before any of its rebuilds and elections, and not
below any that a probe of this election reported. At most one of them accepts, and then it
changes places with the head of the list; otherwise the list stays as it is.
-/
theorem election_of_handleNodeFailure {sort : List Candidate → List Candidate} (hsort : ∀ l, (sort l).Perm l)
    {dead : NodeId} (hnames : (c.tablets.map TabletGroup.name).Nodup)
    (h : replay exec (handleNodeFailure sort dead) tr c = some ((), c')) {tg : TabletGroup}
    (htg : tg ∈ c.tablets) (hlost : LosesPrimary c.nodes dead tg) :
    (Silent tg.name tr ∧ groupOf c'.tablets tg.name = some tg) ∨
      ∃ plan pre δ post c₁ c₂, failurePlan sort c.nodes dead tg = some plan ∧ tr = pre ++ (δ ++ post) ∧
        replay exec (elect sort plan) δ c₁ = some ((), c₂) ∧ Silent tg.name pre ∧ Silent tg.name post ∧
        (∀ e ∈ δ, ∀ w, e.call = .becomePrimary w tg.name → Fresh c.nodes dead tg δ w) ∧
        (((∀ e ∈ δ, ∀ w, e.call = .becomePrimary w tg.name → e.heard ≠ .reply .ok) ∧
            groupOf c'.tablets tg.name = some tg) ∨
          ∃ w, LastOk tg.name w δ ∧
            (∀ e ∈ δ, ∀ n, e.call = .becomePrimary n tg.name → e.heard = .reply .ok → n = w) ∧
            groupOf c'.tablets tg.name = some { tg with nodeIds := swapTo w tg.nodeIds }) := by
  have hgroup := groupOf_of_mem hnames htg
  rw [handleNodeFailure] at h
  replace h := replay_perform.symm.trans h
  dsimp only [exec] at h
  cases hdead : find c.nodes dead with
  | none =>
      rw [hdead] at h
      obtain ⟨rfl, -, rfl⟩ := replay_pure h
      exact .inl ⟨fun _ he => absurd he List.not_mem_nil, hgroup⟩
  | some x =>
      rw [hdead] at h
      obtain ⟨tr₁, tr₂, _, c₁, rfl, h₁, h₂⟩ := replay_bind h
      change replay exec (each rebuild (c.tablets.filterMap (rebuildPlan c.nodes dead))) tr₁ c = _ at h₁
      change replay exec (each (elect sort) (c.tablets.filterMap (failurePlan sort c.nodes dead))) tr₂ c₁ = _ at h₂
      -- rebuilds are for tablets that still have their primary
      have hrebuild : Aside tg.name tr₁ c c₁ := by
        refine aside_each (fun plan hplan tr c c' _ h => aside_rebuild ?_ h) rfl h₁
        obtain ⟨tg', htg', hplan'⟩ := List.mem_filterMap.mp hplan
        rw [tablet_of_rebuildPlan hplan']
        intro hname
        obtain rfl := Option.some.inj (hgroup.symm.trans (hname ▸ groupOf_of_mem hnames htg'))
        rw [rebuildPlan_of_losesPrimary hlost] at hplan'
        exact absurd hplan' (by simp)
      -- and the other elections for tablets of other names
      obtain ⟨front, back, hsplit⟩ := List.append_of_mem htg
      have hfront : ∀ tg' ∈ front, tg.name ≠ tg'.name := by
        rw [hsplit, List.map_append, List.nodup_append] at hnames
        intro tg' htg' hname
        exact hnames.2.2 _ (List.mem_map_of_mem htg') _ (by simp) hname.symm
      have hback : ∀ tg' ∈ back, tg.name ≠ tg'.name := by
        rw [hsplit, List.map_append, List.nodup_append, List.map_cons, List.nodup_cons] at hnames
        intro tg' htg' hname
        exact hnames.2.1.1 (hname ▸ List.mem_map_of_mem htg')
      rw [hsplit, List.filterMap_append] at h₂
      obtain ⟨tr₃, tr₄, c₂, rfl, h₃, h₄⟩ := replay_each_append h₂
      have hbefore := hrebuild.trans (aside_elections hsort hfront hrebuild.ids h₃)
      cases hplan : failurePlan sort c.nodes dead tg with
      | none =>
          rw [List.filterMap_cons_none hplan] at h₄
          have hall := hbefore.trans (aside_elections hsort hback hbefore.ids h₄)
          rw [List.append_assoc] at hall
          exact .inl ⟨hall.silent, hall.group.trans hgroup⟩
      | some plan =>
          rw [List.filterMap_cons_some hplan] at h₄
          obtain ⟨tr₅, tr₆, _, c₃, rfl, h₅, h₆⟩ := replay_bind h₄
          obtain ⟨hel, hids⟩ := election_of_replay hsort hplan hbefore.ids h₅
          have hafter := aside_elections hsort hback (hids.trans hbefore.ids) h₆
          refine .inr ⟨plan, tr₁ ++ tr₃, tr₅, tr₆, c₂, c₃, rfl, by simp, h₅, hbefore.silent, hafter.silent,
            hel.asked, ?_⟩
          rcases hel.outcome with ⟨hnone, hsame⟩ | ⟨w, hlast, -, honly, hset⟩
          · refine .inl ⟨hnone, ?_⟩
            rw [hafter.group, hsame, hbefore.group, hgroup]
          · refine .inr ⟨w, hlast, honly, ?_⟩
            rw [hafter.group, hset, groupOf_setPrimary, if_pos rfl, hbefore.group, hgroup]
            rfl

/-! ### A group of two, and two groups of one name -/

namespace OneFailed

/-- The primary that failed. -/
def failed : StorageNode :=
  { id := [97], host := "a.local", port := 5001, alive := false, wasDown := true, lsn := 3, missed := 3 }

/-- A node that is well. -/
def well (id : NodeId) : StorageNode := { id := id, host := "local", port := 5002, lsn := 3 }

def group (ids : List NodeId) : TabletGroup := { name := [116], rowStart := [], rowEnd := [], nodeIds := ids }

def info : PingInfo := { lsn := some 3, tabletLsns := [([116], 3)], pid := 7 }

/-- One group. -/
def before : Tables := { nodes := [failed, well [98]], tablets := [group [[97], [98]]] }

/-- Another group of the same name in front of it. -/
def sameName : Tables :=
  { nodes := [failed, well [98], well [99]], tablets := [group [[99]], group [[97], [98]]] }

/-- The other replica answers and accepts. -/
def exchanges : Trace sig :=
  [⟨.ping [98], .reply (.pong info), false⟩, ⟨.becomePrimary [98] [116], .reply .ok, false⟩]

def afterwards (c : Tables) (tgs : List TabletGroup) : Tables :=
  { nodes := c.nodes.map (fun n => if n.id = [98] then n.writeBack (n.refreshed info) else n), tablets := tgs }

theorem replay_before : replay exec (handleNodeFailure id [97]) exchanges before =
    some ((), afterwards before [group [[98], [97]]]) := rfl

theorem replay_sameName : replay exec (handleNodeFailure id [97]) exchanges sameName =
    some ((), afterwards sameName sameName.tablets) := rfl

theorem losesPrimary (nodes : List StorageNode) : LosesPrimary nodes [97] (group [[97], [98]]) := by
  refine ⟨List.mem_cons_self, ?_⟩
  rintro head ⟨⟩
  exact .inl rfl

end OneFailed

/-- The replica that accepts was fresh. -/
theorem election_of_handleNodeFailure_oneFailed :
    ∃ δ, δ <:+: OneFailed.exchanges ∧
      Fresh OneFailed.before.nodes [97] (OneFailed.group [[97], [98]]) δ [98] := by
  have hsort : ∀ l : List Candidate, (id l).Perm l := fun l => List.Perm.refl l
  have hasked : (⟨.becomePrimary [98] [116], .reply .ok, false⟩ : Exchange sig) ∈ OneFailed.exchanges :=
    List.mem_cons_of_mem _ List.mem_cons_self
  rcases election_of_handleNodeFailure hsort (by decide) OneFailed.replay_before List.mem_cons_self
    (OneFailed.losesPrimary _) with ⟨hsilent, -⟩ | ⟨plan, pre, δ, post, c₁, c₂, -, htr, -, hpre, hpost, hfresh, -⟩
  · exact absurd rfl (hsilent _ hasked [98])
  · refine ⟨δ, ⟨pre, post, by rw [htr, List.append_assoc]⟩, ?_⟩
    rw [htr] at hasked
    rcases List.mem_append.mp hasked with h | h
    · exact absurd rfl (hpre _ h [98])
    · rcases List.mem_append.mp h with h | h
      · exact hfresh _ h [98] rfl
      · exact absurd rfl (hpost _ h [98])

namespace TwoFailed

/-- The primary of both tablets. -/
def failed : StorageNode := { OneFailed.failed with tabletLsns := [([49], 3), ([50], 3)] }

/-- A replica that has `n` operations of the second tablet. -/
def well (id : NodeId) (n : Nat) : StorageNode :=
  { OneFailed.well id with tabletLsns := [([49], 3), ([50], n)] }

def one : TabletGroup := { name := [49], rowStart := [], rowEnd := [109], nodeIds := [[97], [120]] }

def two : TabletGroup := { name := [50], rowStart := [109], rowEnd := [], nodeIds := [[97], [119], [120]] }

def info (n : Nat) : PingInfo := { lsn := some 3, tabletLsns := [([49], 3), ([50], n)], pid := 7 }

def before : Tables := { nodes := [failed, well [119] 7, well [120] 7], tablets := [one, two] }

/-- The plan for the first tablet. -/
def planOne : FailurePlan :=
  { tablet := [49]
    candidates := [{ primary := well [120] 7, followers := [], lsn := 3 }]
    maxKnown := 3 }

/-- And for the second. -/
def planTwo : FailurePlan :=
  { tablet := [50]
    candidates :=
      [{ primary := well [119] 7, followers := [well [120] 7], lsn := 7 },
        { primary := well [120] 7, followers := [well [119] 7], lsn := 7 }]
    maxKnown := 7 }

/-- The election of the first tablet: the replica of both reports ten operations of the
second. -/
def first : Trace sig :=
  [⟨.ping [120], .reply (.pong (info 10)), false⟩, ⟨.becomePrimary [120] [49], .reply .ok, false⟩]

/-- And that of the second, in which that replica no longer answers. -/
def second : Trace sig :=
  [⟨.ping [119], .reply (.pong (info 7)), false⟩, ⟨.ping [120], .noReply, false⟩, ⟨.ping [120], .noReply, false⟩,
    ⟨.becomePrimary [119] [50], .reply .ok, false⟩]

def between : Tables :=
  { nodes := [failed, well [119] 7, (well [120] 7).writeBack ((well [120] 7).refreshed (info 10))]
    tablets := [{ one with nodeIds := [[120], [97]] }, two] }

def afterwards : Tables :=
  { nodes := [failed, (well [119] 7).writeBack ((well [119] 7).refreshed (info 7)),
      (well [120] 7).writeBack ((well [120] 7).refreshed (info 10))]
    tablets := [{ one with nodeIds := [[120], [97]] }, { two with nodeIds := [[119], [97], [120]] }] }

theorem replay_before : replay exec (handleNodeFailure id [97]) (first ++ second) before =
    some ((), afterwards) := rfl

theorem plans_before : before.tablets.filterMap (failurePlan id before.nodes [97]) = [planOne, planTwo] := rfl

theorem replay_first : replay exec (elect id planOne) first before = some ((), between) := rfl

theorem replay_second : replay exec (elect id planTwo) second between = some ((), afterwards) := rfl

end TwoFailed

/-- What a call does not promise. The node that is promoted for the second of two tablets has
reported 7 operations, while 10 are known of another replica when that election starts,
from the election before it. With two tablets of one name the node that is promoted for the
second is nowhere at the front. -/
theorem not_safe_twoElections :
    (replay exec (handleNodeFailure id [97]) (TwoFailed.first ++ TwoFailed.second) TwoFailed.before =
          some ((), TwoFailed.afterwards) ∧
        TwoFailed.before.tablets.filterMap (failurePlan id TwoFailed.before.nodes [97]) =
          [TwoFailed.planOne, TwoFailed.planTwo] ∧
        replay exec (elect id TwoFailed.planOne) TwoFailed.first TwoFailed.before = some ((), TwoFailed.between) ∧
        replay exec (elect id TwoFailed.planTwo) TwoFailed.second TwoFailed.between =
          some ((), TwoFailed.afterwards) ∧
        Promoted [119] [50] TwoFailed.second ∧
        (∀ e ∈ TwoFailed.second, ∀ lsn, reported TwoFailed.before.nodes [50] e = some ([119], lsn) → lsn = 7) ∧
        ∃ x ∈ TwoFailed.between.nodes, x.id ∈ TwoFailed.two.nodeIds ∧ x.tabletLsn [50] = 10) ∧
      replay exec (handleNodeFailure id [97]) OneFailed.exchanges OneFailed.sameName =
          some ((), OneFailed.afterwards OneFailed.sameName OneFailed.sameName.tablets) ∧
        LosesPrimary OneFailed.sameName.nodes [97] (OneFailed.group [[97], [98]]) ∧
        OneFailed.group [[97], [98]] ∈ OneFailed.sameName.tablets ∧
        Promoted [98] [116] OneFailed.exchanges ∧
        ∀ tg ∈ (OneFailed.afterwards OneFailed.sameName OneFailed.sameName.tablets).tablets,
          tg.nodeIds ≠ swapTo [98] [[97], [98]] := by
  refine ⟨⟨TwoFailed.replay_before, TwoFailed.plans_before, TwoFailed.replay_first, TwoFailed.replay_second,
      ?_, ?_, ?_⟩, OneFailed.replay_sameName, OneFailed.losesPrimary _, List.mem_cons_of_mem _ List.mem_cons_self,
    ⟨_, List.mem_cons_of_mem _ List.mem_cons_self, rfl, rfl⟩, ?_⟩
  · exact ⟨⟨.becomePrimary [119] [50], .reply .ok, false⟩, by simp [TwoFailed.second], rfl, rfl⟩
  · intro e he lsn hrep
    rcases List.mem_cons.mp he with rfl | he
    · exact (Prod.mk.inj (Option.some.inj hrep)).2.symm
    · -- nobody else is probed with an answer
      have hnone : ∀ e' ∈ TwoFailed.second.tail, reported TwoFailed.before.nodes [50] e' = none := by
        intro e' he'
        simp only [TwoFailed.second, List.tail_cons, List.mem_cons, List.not_mem_nil, or_false] at he'
        rcases he' with rfl | rfl | rfl <;> rfl
      rw [hnone e he] at hrep
      exact absurd hrep (by simp)
  · exact ⟨(TwoFailed.well [120] 7).writeBack ((TwoFailed.well [120] 7).refreshed (TwoFailed.info 10)),
      by simp [TwoFailed.between], by decide, by decide⟩
  · decide

end NCloud.Coordinator
