import Mathlib.Data.List.Forall2
import NCloud.Coordinator.Routing

/-!
# Who was promoted, and who is routed to

Three routines promote nodes: `configure_initial_tablet_roles`, `handle_node_failure`
and `handle_node_recovery`. Each works on copies, and writes the new order back only at
its end, if at all. A node may have accepted a promotion of which the coordinator has
heard nothing, and then it is not the one that is routed to.
-/

namespace NCloud.Coordinator

open Process Wire

/-! ## Orders -/

theorem perm_set {α : Type} {l : List α} {i : Nat} {x : α} (head : α) (h : l[i]? = some x) :
    (x :: l.set i head).Perm (head :: l) := by
  induction l generalizing i with
  | nil => exact absurd h (by simp)
  | cons y l ih =>
      cases i with
      | zero =>
          obtain rfl : y = x := by simpa using h
          exact List.Perm.swap ..
      | succ i =>
          have hrest := ih (i := i) (by simpa using h)
          calc (x :: y :: l.set i head).Perm (y :: x :: l.set i head) := List.Perm.swap ..
            _ |>.Perm (y :: head :: l) := hrest.cons y
            _ |>.Perm (head :: y :: l) := List.Perm.swap ..

theorem perm_swapFront {α : Type} (i : Nat) (l : List α) : (swapFront i l).Perm l := by
  cases l with
  | nil => exact List.Perm.refl _
  | cons head rest =>
      cases i with
      | zero => exact List.Perm.refl _
      | succ i =>
          rw [swapFront]
          cases h : rest[i]? with
          | none => exact List.Perm.refl _
          | some x => exact perm_set head h

theorem head_swapFront {α : Type} {i : Nat} {l : List α} {x : α} (h : l[i]? = some x) :
    (swapFront i l).head? = some x := by
  cases l with
  | nil => exact absurd h (by simp)
  | cons head rest =>
      cases i with
      | zero => exact h
      | succ i =>
          rw [List.getElem?_cons_succ] at h
          rw [swapFront, h]
          rfl

theorem head_swapTo {id : NodeId} {ids : List NodeId} (h : id ∈ ids) : (swapTo id ids).head? = some id :=
  head_swapFront (List.getElem?_idxOf h)

/-- The same groups, up to the order of their nodes. -/
def SameGroup (tg tg' : TabletGroup) : Prop :=
  tg'.name = tg.name ∧ tg'.rowStart = tg.rowStart ∧ tg'.rowEnd = tg.rowEnd ∧ tg'.nodeIds.Perm tg.nodeIds

abbrev SameGroups (l l' : List TabletGroup) : Prop := List.Forall₂ SameGroup l l'

theorem SameGroup.refl (tg : TabletGroup) : SameGroup tg tg := ⟨rfl, rfl, rfl, List.Perm.refl _⟩

theorem SameGroup.trans {tg₁ tg₂ tg₃ : TabletGroup} (h₁ : SameGroup tg₁ tg₂) (h₂ : SameGroup tg₂ tg₃) :
    SameGroup tg₁ tg₃ :=
  ⟨h₂.1.trans h₁.1, h₂.2.1.trans h₁.2.1, h₂.2.2.1.trans h₁.2.2.1, h₂.2.2.2.trans h₁.2.2.2⟩

theorem sameGroups_refl (l : List TabletGroup) : SameGroups l l :=
  List.forall₂_same.mpr (fun tg _ => .refl tg)

theorem sameGroups_trans {l₁ l₂ l₃ : List TabletGroup} (h₁ : SameGroups l₁ l₂) (h₂ : SameGroups l₂ l₃) :
    SameGroups l₁ l₃ := by
  induction h₁ generalizing l₃ with
  | nil => exact h₂
  | cons h _ ih =>
      cases h₂ with
      | cons h' hrest => exact .cons (h.trans h') (ih hrest)

theorem sameGroups_setPrimary (tablet : TabletName) (id : NodeId) (l : List TabletGroup) :
    SameGroups l (setPrimary tablet id l) := by
  induction l with
  | nil => exact .nil
  | cons tg l ih =>
      rw [setPrimary]
      split
      · exact .cons ⟨rfl, rfl, rfl, perm_swapFront _ _⟩ (sameGroups_refl l)
      · exact .cons (.refl tg) ih

theorem sameGroups_names {l l' : List TabletGroup} (h : SameGroups l l') :
    l'.map TabletGroup.name = l.map TabletGroup.name := by
  induction h with
  | nil => rfl
  | cons h _ ih => rw [List.map_cons, List.map_cons, h.1, ih]

/-- The group of a name. -/
def groupOf (l : List TabletGroup) (tablet : TabletName) : Option TabletGroup :=
  l.find? (fun tg => decide (tg.name = tablet))

/-- The node that is routed to. -/
def primaryOf (l : List TabletGroup) (tablet : TabletName) : Option NodeId :=
  (groupOf l tablet).bind (·.nodeIds.head?)

theorem groupOf_of_mem {l : List TabletGroup} (hnames : (l.map TabletGroup.name).Nodup) {tg : TabletGroup}
    (h : tg ∈ l) : groupOf l tg.name = some tg := by
  induction l with
  | nil => exact absurd h List.not_mem_nil
  | cons tg' l ih =>
      obtain ⟨hnot, hnames⟩ := List.nodup_cons.mp hnames
      rcases List.mem_cons.mp h with rfl | h
      · exact List.find?_cons_of_pos (by simp)
      · have hne : tg'.name ≠ tg.name := fun heq => hnot (heq ▸ List.mem_map_of_mem h)
        rw [groupOf, List.find?_cons_of_neg (by simpa using hne)]
        exact ih hnames h

theorem sameGroups_groupOf {l l' : List TabletGroup} (h : SameGroups l l') {tablet : TabletName}
    {tg : TabletGroup} (htg : groupOf l tablet = some tg) :
    ∃ tg', groupOf l' tablet = some tg' ∧ SameGroup tg tg' := by
  induction h with
  | nil => exact absurd htg (by simp [groupOf])
  | @cons a b l l' hab _ ih =>
      by_cases ha : a.name = tablet
      · rw [groupOf, List.find?_cons_of_pos (by simpa using ha)] at htg
        obtain rfl := Option.some.inj htg
        refine ⟨b, List.find?_cons_of_pos ?_, hab⟩
        simpa using hab.1.trans ha
      · rw [groupOf, List.find?_cons_of_neg (by simpa using ha)] at htg
        obtain ⟨tg', htg', hsame⟩ := ih htg
        refine ⟨tg', ?_, hsame⟩
        rw [groupOf, List.find?_cons_of_neg (by simpa [hab.1] using ha)]
        exact htg'

theorem groupOf_setPrimary (l : List TabletGroup) (tablet tablet' : TabletName) (id : NodeId) :
    groupOf (setPrimary tablet id l) tablet' =
      if tablet' = tablet then (groupOf l tablet').map (fun tg => { tg with nodeIds := swapTo id tg.nodeIds })
      else groupOf l tablet' := by
  induction l with
  | nil =>
      split
      · rfl
      · rfl
  | cons tg l ih =>
      rw [setPrimary]
      by_cases hname : tg.name = tablet
      · rw [if_pos hname]
        by_cases ht : tablet' = tablet
        · have hpos : tg.name = tablet' := hname.trans ht.symm
          rw [if_pos ht, groupOf, groupOf, List.find?_cons_of_pos (by simpa using hpos),
            List.find?_cons_of_pos (by simpa using hpos)]
          rfl
        · have hneg : tg.name ≠ tablet' := fun h => ht (h.symm.trans hname)
          rw [if_neg ht, groupOf, groupOf, List.find?_cons_of_neg (by simpa using hneg),
            List.find?_cons_of_neg (by simpa using hneg)]
      · rw [if_neg hname]
        by_cases ht : tg.name = tablet'
        · have hne : tablet' ≠ tablet := fun h => hname (ht.trans h)
          rw [if_neg hne, groupOf, groupOf, List.find?_cons_of_pos (by simpa using ht),
            List.find?_cons_of_pos (by simpa using ht)]
        · rw [groupOf, List.find?_cons_of_neg (by simpa using ht)]
          refine Eq.trans ih ?_
          rw [groupOf, groupOf, List.find?_cons_of_neg (by simpa using ht)]

theorem primaryOf_setPrimary_of_ne (l : List TabletGroup) {tablet tablet' : TabletName} (id : NodeId)
    (h : tablet' ≠ tablet) : primaryOf (setPrimary tablet id l) tablet' = primaryOf l tablet' := by
  rw [primaryOf, groupOf_setPrimary, if_neg h]
  rfl

theorem primaryOf_setPrimary {l : List TabletGroup} {tablet : TabletName} {tg : TabletGroup} {id : NodeId}
    (htg : groupOf l tablet = some tg) (hid : id ∈ tg.nodeIds) :
    primaryOf (setPrimary tablet id l) tablet = some id := by
  rw [primaryOf, groupOf_setPrimary, if_pos rfl, htg]
  exact head_swapTo hid

/-! ## Who has accepted -/

/-- A promotion that the node has carried out, as far as the answer says or, without an
answer, in fact. -/
def acceptance (e : Exchange sig) : Option (TabletName × NodeId) :=
  match e.call with
  | .becomePrimary n tablet =>
      match e.heard with
      | .reply .ok => some (tablet, n)
      | .reply _ => none
      | _ => if e.silent then some (tablet, n) else none
  | _ => none

/-- The node that has accepted last, after one more request. -/
def noteAcceptance (tablet : TabletName) (last : Option NodeId) (e : Exchange sig) : Option NodeId :=
  match acceptance e with
  | some (tablet', n) => if tablet' = tablet then some n else last
  | none => last

/-- The node that has accepted last for a tablet, `start` if none has. -/
def lastAccepted (tablet : TabletName) (start : Option NodeId) (tr : Trace sig) : Option NodeId :=
  tr.foldl (noteAcceptance tablet) start

theorem call_of_acceptance {e : Exchange sig} {tablet : TabletName} {n : NodeId}
    (h : acceptance e = some (tablet, n)) : e.call = .becomePrimary n tablet := by
  unfold acceptance at h
  split at h
  · rename_i n' tablet' hcall
    have hpair : (tablet', n') = (tablet, n) := by
      split at h
      · exact Option.some.inj h
      · exact absurd h (by simp)
      · split at h
        · exact Option.some.inj h
        · exact absurd h (by simp)
    obtain ⟨rfl, rfl⟩ := Prod.mk.inj hpair
    exact hcall
  · exact absurd h (by simp)

theorem acceptance_of_ok {e : Exchange sig} {tablet : TabletName} {n : NodeId}
    (hcall : e.call = .becomePrimary n tablet) (hok : e.heard = .reply .ok) :
    acceptance e = some (tablet, n) := by
  rw [acceptance, hcall, hok]

theorem lastAccepted_append (tablet : TabletName) (start : Option NodeId) (tr tr' : Trace sig) :
    lastAccepted tablet start (tr ++ tr') = lastAccepted tablet (lastAccepted tablet start tr) tr' :=
  List.foldl_append

theorem noteAcceptance_or (tablet : TabletName) (o start : Option NodeId) (e : Exchange sig) :
    noteAcceptance tablet (o.or start) e = (noteAcceptance tablet o e).or start := by
  rw [noteAcceptance, noteAcceptance]
  cases acceptance e with
  | none => rfl
  | some q =>
      show (if q.1 = tablet then some q.2 else o.or start) = (if q.1 = tablet then some q.2 else o).or start
      split
      · rfl
      · rfl

/-- What was accepted before counts if nobody accepts. -/
theorem lastAccepted_or (tablet : TabletName) (o start : Option NodeId) (tr : Trace sig) :
    lastAccepted tablet (o.or start) tr = (lastAccepted tablet o tr).or start := by
  induction tr generalizing o with
  | nil => rfl
  | cons e tr ih =>
      show lastAccepted tablet (noteAcceptance tablet (o.or start) e) tr = _
      rw [noteAcceptance_or]
      exact ih _

/-- No promotion for the tablet. -/
def Silent (tablet : TabletName) (tr : Trace sig) : Prop := ∀ e ∈ tr, ∀ n, e.call ≠ .becomePrimary n tablet

theorem Silent.append {tablet : TabletName} {tr tr' : Trace sig} (h : Silent tablet tr)
    (h' : Silent tablet tr') : Silent tablet (tr ++ tr') := by
  intro e he
  rcases List.mem_append.mp he with he | he
  · exact h e he
  · exact h' e he

/-- What all that accept have in common. -/
theorem lastAccepted_of_forall {tablet : TabletName} {tr : Trace sig} {P : NodeId → Prop}
    (h : ∀ e ∈ tr, ∀ n, acceptance e = some (tablet, n) → P n) (start : Option NodeId) :
    lastAccepted tablet start tr = start ∨ ∃ n, P n ∧ lastAccepted tablet start tr = some n := by
  induction tr generalizing start with
  | nil => exact .inl rfl
  | cons e tr ih =>
      have hrest := ih (fun e' he' => h e' (List.mem_cons_of_mem _ he'))
      have hnote : noteAcceptance tablet start e = start ∨
          ∃ n, P n ∧ noteAcceptance tablet start e = some n := by
        rw [noteAcceptance]
        cases hacc : acceptance e with
        | none => exact .inl rfl
        | some q =>
            obtain ⟨tablet', n⟩ := q
            by_cases ht : tablet' = tablet
            · subst ht
              exact .inr ⟨n, h e List.mem_cons_self n hacc, if_pos rfl⟩
            · exact .inl (if_neg ht)
      show lastAccepted tablet (noteAcceptance tablet start e) tr = start ∨
        ∃ n, P n ∧ lastAccepted tablet (noteAcceptance tablet start e) tr = some n
      rcases hrest (noteAcceptance tablet start e) with hlast | hlast
      · rw [hlast]
        exact hnote
      · exact .inr hlast

theorem lastAccepted_of_silent {tablet : TabletName} {start : Option NodeId} {tr : Trace sig}
    (h : Silent tablet tr) : lastAccepted tablet start tr = start := by
  have hnone : ∀ e ∈ tr, ∀ n, acceptance e = some (tablet, n) → False :=
    fun e he n hacc => h e he n (call_of_acceptance hacc)
  rcases lastAccepted_of_forall hnone start with h | ⟨_, hfalse, _⟩
  · exact h
  · exact hfalse.elim

/-- The last promotion for the tablet was that of `w`, and was heard to succeed. -/
def LastOk (tablet : TabletName) (w : NodeId) (tr : Trace sig) : Prop :=
  ∃ pre e post, tr = pre ++ e :: post ∧ e.call = .becomePrimary w tablet ∧ e.heard = .reply .ok ∧
    Silent tablet post

theorem LastOk.append {tablet : TabletName} {w : NodeId} {tr tr' : Trace sig} (h : LastOk tablet w tr)
    (h' : Silent tablet tr') : LastOk tablet w (tr ++ tr') := by
  obtain ⟨pre, e, post, rfl, hcall, hok, hpost⟩ := h
  exact ⟨pre, e, post ++ tr', by simp, hcall, hok, hpost.append h'⟩

theorem LastOk.prepend {tablet : TabletName} {w : NodeId} {tr : Trace sig} (h : LastOk tablet w tr)
    (tr' : Trace sig) : LastOk tablet w (tr' ++ tr) := by
  obtain ⟨pre, e, post, rfl, hcall, hok, hpost⟩ := h
  exact ⟨tr' ++ pre, e, post, by simp, hcall, hok, hpost⟩

theorem lastAccepted_of_lastOk {tablet : TabletName} {w : NodeId} {tr : Trace sig} (h : LastOk tablet w tr)
    (start : Option NodeId) : lastAccepted tablet start tr = some w := by
  obtain ⟨pre, e, post, rfl, hcall, hok, hpost⟩ := h
  rw [lastAccepted_append]
  have hstep : lastAccepted tablet (lastAccepted tablet start pre) (e :: post)
      = lastAccepted tablet (some w) post := by
    have hnote : noteAcceptance tablet (lastAccepted tablet start pre) e = some w := by
      rw [noteAcceptance, acceptance_of_ok hcall hok]
      exact if_pos rfl
    rw [lastAccepted, List.foldl_cons, hnote]
    rfl
  rw [hstep, lastAccepted_of_silent hpost]

/-! ## What the routines do to a tablet -/

/-- A routine that began with groups `l₀` is through with a tablet: it has not stored
anything, and then it has asked nobody but the primary or has heard of no success, or it
has stored the node whose success it heard of last. -/
def Settled (l₀ : List TabletGroup) (tablet : TabletName) (tr : Trace sig) (l : List TabletGroup) : Prop :=
  (primaryOf l tablet = primaryOf l₀ tablet ∧
    ((∀ e ∈ tr, ∀ n, e.call = .becomePrimary n tablet → primaryOf l₀ tablet = some n) ∨
      ∀ e ∈ tr, ∀ n, e.call = .becomePrimary n tablet → e.heard ≠ .reply .ok)) ∨
  ∃ w, primaryOf l tablet = some w ∧ LastOk tablet w tr

theorem settled_of_silent {l₀ l : List TabletGroup} {tablet : TabletName} {tr : Trace sig}
    (h : Silent tablet tr) (hl : primaryOf l tablet = primaryOf l₀ tablet) : Settled l₀ tablet tr l :=
  .inl ⟨hl, .inl (fun e he n hcall => absurd hcall (h e he n))⟩

/-- Other tablets do not matter. -/
theorem Settled.other {l₀ l l' : List TabletGroup} {tablet : TabletName} {tr tr' : Trace sig}
    (h : Settled l₀ tablet tr l) (htr : Silent tablet tr') (hl : primaryOf l' tablet = primaryOf l tablet) :
    Settled l₀ tablet (tr ++ tr') l' := by
  rcases h with ⟨hsame, hcalls⟩ | ⟨w, hw, hlast⟩
  · refine .inl ⟨hl.trans hsame, ?_⟩
    rcases hcalls with hcalls | hcalls
    · refine .inl (fun e he n hcall => ?_)
      rcases List.mem_append.mp he with he | he
      · exact hcalls e he n hcall
      · exact absurd hcall (htr e he n)
    · refine .inr (fun e he n hcall => ?_)
      rcases List.mem_append.mp he with he | he
      · exact hcalls e he n hcall
      · exact absurd hcall (htr e he n)
  · exact .inr ⟨w, hl.trans hw, hlast.append htr⟩

/-- Every promotion that another node than the primary accepts is heard of, or a later
one for that tablet is. -/
def Answered (l₀ : List TabletGroup) (tr : Trace sig) : Prop :=
  ∀ pre e post, tr = pre ++ e :: post → ∀ tablet n, acceptance e = some (tablet, n) →
    primaryOf l₀ tablet ≠ some n →
    ∃ e' ∈ e :: post, (∃ n', e'.call = .becomePrimary n' tablet) ∧ e'.heard = .reply .ok

/-- **Then the last one to accept is routed to.** -/
theorem Settled.primary {l₀ l : List TabletGroup} {tablet : TabletName} {tr : Trace sig}
    (h : Settled l₀ tablet tr l) (hans : Answered l₀ tr) {start : Option NodeId}
    (hstart : ∀ n, start = some n → primaryOf l₀ tablet = some n) {n : NodeId}
    (hn : lastAccepted tablet start tr = some n) : primaryOf l tablet = some n := by
  rcases h with ⟨hsame, hcalls⟩ | ⟨w, hw, hlast⟩
  · have hone : ∀ e ∈ tr, ∀ m, acceptance e = some (tablet, m) → primaryOf l₀ tablet = some m := by
      intro e he m hacc
      rcases hcalls with hcalls | hcalls
      · exact hcalls e he m (call_of_acceptance hacc)
      · by_contra hne
        obtain ⟨pre, post, rfl⟩ := List.append_of_mem he
        obtain ⟨e', he', ⟨n', hcall⟩, hok⟩ := hans pre e post rfl tablet m hacc hne
        exact hcalls e' (List.mem_append_right _ he') n' hcall hok
    rw [hsame]
    rcases lastAccepted_of_forall hone start with hlast | ⟨m, hm, hlast⟩
    · exact hstart n (hlast.symm.trans hn)
    · rw [hlast] at hn
      obtain rfl := Option.some.inj hn
      exact hm
  · rw [lastAccepted_of_lastOk hlast] at hn
    rw [hw, hn]

variable {c c' : Tables} {tr : Trace sig} {α : Type}

/-! ### What promotes nobody -/

/-- No promotion is asked for and no order is changed. -/
structure Calm (c : Tables) (tr : Trace sig) (c' : Tables) (tr' : Trace sig) : Prop where
  tablets : c'.tablets = c.tablets
  ids : c'.nodes.map StorageNode.id = c.nodes.map StorageNode.id
  trace : ∃ δ, tr' = tr ++ δ ∧ ∀ tablet, Silent tablet δ

theorem Calm.refl (c : Tables) (tr : Trace sig) : Calm c tr c tr :=
  ⟨rfl, rfl, [], by simp, fun _ e he => absurd he List.not_mem_nil⟩

theorem Calm.trans {c₁ c₂ c₃ : Tables} {tr₁ tr₂ tr₃ : Trace sig} (h₁ : Calm c₁ tr₁ c₂ tr₂)
    (h₂ : Calm c₂ tr₂ c₃ tr₃) : Calm c₁ tr₁ c₃ tr₃ := by
  obtain ⟨δ₁, rfl, hδ₁⟩ := h₁.trace
  obtain ⟨δ₂, rfl, hδ₂⟩ := h₂.trace
  exact ⟨h₂.tablets.trans h₁.tablets, h₂.ids.trans h₁.ids, δ₁ ++ δ₂, by simp,
    fun tablet => (hδ₁ tablet).append (hδ₂ tablet)⟩

/-- A program that is calm. -/
abbrev Calmly (p : CoordProg α) (Q : α → Prop) (tr : Trace sig) (c : Tables) : Prop :=
  Leads exec p (fun a tr' c' => Calm c tr c' tr' ∧ Q a) tr c

theorem Calmly.bind {β : Type} {p : CoordProg α} {f : α → CoordProg β} {Q : α → Prop} {R : β → Prop}
    (hp : Calmly p Q tr c) (hf : ∀ a tr' c', Q a → Calmly (f a) R tr' c') : Calmly (p >>= f) R tr c := by
  refine Leads.bind (hp.mono ?_)
  rintro a tr' c' ⟨hcalm, hq⟩
  refine (hf a tr' c' hq).mono ?_
  rintro b tr'' c'' ⟨hcalm', hr⟩
  exact ⟨hcalm.trans hcalm', hr⟩

theorem Calmly.done {a : α} {Q : α → Prop} (hq : Q a) : Calmly (pure a) Q tr c := ⟨.refl c tr, hq⟩

theorem ids_update (c : Tables) (id : NodeId) {f : StorageNode → StorageNode} (hf : ∀ e, (f e).id = e.id) :
    (c.update id f).nodes.map StorageNode.id = c.nodes.map StorageNode.id := by
  rw [Tables.update, List.map_map]
  refine List.map_congr_left (fun n _ => ?_)
  simp only [Function.comp_apply]
  split
  · exact hf n
  · rfl

theorem find_isSome_iff {nodes : List StorageNode} {x : NodeId} :
    (find nodes x).isSome = true ↔ x ∈ nodes.map StorageNode.id := by
  rw [find, List.find?_isSome, List.mem_map]
  simp

theorem calm_request (c : Tables) (tr : Trace sig) {call : Call} (h : ∀ n tablet, call ≠ .becomePrimary n tablet)
    (o : Outcome Reply) (silent : Bool) : Calm c tr c (tr ++ [⟨call, o, silent⟩]) := by
  refine ⟨rfl, rfl, _, rfl, fun tablet e he n => ?_⟩
  rw [List.mem_singleton.mp he]
  exact h n tablet

theorem calmly_attempts {call : Call} (h : ∀ n tablet, call ≠ .becomePrimary n tablet) (n : Nat) :
    Calmly (attempts call n) (fun _ => True) tr c := by
  induction n generalizing tr with
  | zero => exact .done trivial
  | succ n ih =>
      intro o silent
      have hone := calm_request c tr h o silent
      have hagain : Leads exec (attempts call n) (fun _ tr' c' => Calm c tr c' tr' ∧ True)
          (tr ++ [⟨call, o, silent⟩]) c :=
        ih.mono (fun _ _ _ hcalm => ⟨hone.trans hcalm.1, trivial⟩)
      cases o with
      | reply r =>
          cases r with
          | ok => exact ⟨hone, trivial⟩
          | _ => exact hagain
      | _ => exact hagain

theorem calmly_demoteAndSyncNode (id primary : NodeId) (tablet : TabletName) :
    Calmly (demoteAndSyncNode id primary tablet) (fun _ => True) tr c := by
  have h : ∀ n tablet', Call.becomeSecondary id primary tablet ≠ .becomePrimary n tablet' := nofun
  exact calmly_attempts h 3

theorem calmly_addReplicaToPrimary (primary id : NodeId) (tablet : TabletName) :
    Calmly (addReplicaToPrimary primary id tablet) (fun _ => True) tr c := by
  have h : ∀ n tablet', Call.addReplica primary id tablet ≠ .becomePrimary n tablet' := nofun
  exact calmly_attempts h 3

theorem calmly_refreshAndCache (node : StorageNode) :
    Calmly (refreshAndCache node) (fun o => ∀ f, o = some f → f.id = node.id ∧ f.alive = true) tr c := by
  intro o silent
  have hping : ∀ n tablet, Call.ping node.id ≠ .becomePrimary n tablet := nofun
  have hone := calm_request c tr hping o silent
  cases o with
  | reply r =>
      cases r with
      | pong info =>
          refine ⟨hone.trans ⟨rfl, ids_update c _ (fun _ => rfl), [], by simp, fun _ e he =>
            absurd he List.not_mem_nil⟩, ?_⟩
          rintro f ⟨⟩
          exact ⟨rfl, rfl⟩
      | _ => exact ⟨hone, nofun⟩
  | _ => exact ⟨hone, nofun⟩

theorem calmly_refreshFollowers (fs : List StorageNode) :
    Calmly (refreshFollowers fs) (fun _ => True) tr c := by
  induction fs generalizing tr c with
  | nil => exact .done trivial
  | cons f fs ih =>
      refine Calmly.bind (calmly_refreshAndCache f) ?_
      intro o tr' c' _
      cases o with
      | none => exact ih
      | some f' => exact Calmly.bind ih (fun _ _ _ _ => .done trivial)

theorem calmly_attachFollowers (primary : NodeId) (tablet : TabletName) (fs : List StorageNode) :
    Calmly (attachFollowers primary tablet fs) (fun _ => True) tr c := by
  induction fs generalizing tr c with
  | nil => exact .done trivial
  | cons f fs ih =>
      refine Calmly.bind (calmly_demoteAndSyncNode f.id primary tablet) ?_
      intro ok tr' c' _
      cases ok with
      | false => exact ih
      | true => exact Calmly.bind (calmly_addReplicaToPrimary primary f.id tablet) (fun _ _ _ _ => ih)

theorem calmly_markAlive (id : NodeId) : Calmly (write (.markAlive id)) (fun _ => True) tr c :=
  ⟨⟨rfl, ids_update c id (fun _ => rfl), [], by simp, fun _ e he => absurd he List.not_mem_nil⟩, trivial⟩

/-- The candidates that are left were there before. -/
theorem calmly_refreshCandidates (tablet : TabletName) (cs : List Candidate) (maxKnown : Nat) :
    Calmly (refreshCandidates tablet cs maxKnown)
      (fun q => ∀ cand ∈ q.1, ∃ cand₀ ∈ cs, cand.primary.id = cand₀.primary.id) tr c := by
  induction cs generalizing tr c maxKnown with
  | nil => exact .done (fun _ hcand => absurd hcand List.not_mem_nil)
  | cons cand cs ih =>
      have hmore : ∀ q : List Candidate × Nat,
          (∀ cand' ∈ q.1, ∃ cand₀ ∈ cs, cand'.primary.id = cand₀.primary.id) →
            ∀ cand' ∈ q.1, ∃ cand₀ ∈ cand :: cs, cand'.primary.id = cand₀.primary.id := by
        intro q hq cand' hcand'
        obtain ⟨cand₀, hmem, heq⟩ := hq cand' hcand'
        exact ⟨cand₀, List.mem_cons_of_mem _ hmem, heq⟩
      refine Calmly.bind (calmly_refreshAndCache cand.primary) ?_
      intro o tr₁ c₁ ho
      cases o with
      | none => exact (ih maxKnown).mono (fun q _ _ hq => ⟨hq.1, hmore q hq.2⟩)
      | some p =>
          refine Calmly.bind (calmly_refreshFollowers cand.followers) ?_
          intro fs tr₂ c₂ _
          refine Calmly.bind (ih _) ?_
          intro q tr₃ c₃ hq
          refine .done ?_
          intro cand' hcand'
          rcases List.mem_cons.mp hcand' with rfl | hcand'
          · exact ⟨cand, List.mem_cons_self, (ho p rfl).1⟩
          · exact hmore q hq cand' hcand'

theorem calmly_refreshPrimary (plan : RecoveryPlan) (followers : List StorageNode) :
    Calmly (refreshPrimary plan followers) (fun _ => True) tr c := by
  unfold refreshPrimary
  cases plan.primary with
  | none =>
      show Calmly (if plan.oldPrimary ≠ plan.live.id then _ else _) _ tr c
      split
      · exact .done trivial
      · exact .done trivial
  | some p =>
      dsimp only
      cases followers.find? (fun f => decide (f.id = p.id)) with
      | some f => exact .done trivial
      | none => exact (calmly_refreshAndCache p).mono (fun _ _ _ hq => ⟨hq.1, trivial⟩)

theorem calmly_rejoin (tablet : TabletName) (live primary : StorageNode) :
    Calmly (rejoin tablet live primary) (fun _ => True) tr c := by
  refine Calmly.bind (calmly_demoteAndSyncNode live.id primary.id tablet) ?_
  intro ok tr₁ c₁ _
  cases ok with
  | false => exact .done trivial
  | true =>
      refine Calmly.bind (calmly_addReplicaToPrimary primary.id live.id tablet) ?_
      intro ok tr₂ c₂ _
      cases ok with
      | false => exact .done trivial
      | true => exact calmly_markAlive live.id

/-! ### What promotes -/

/-- Three attempts at a request. -/
theorem leads_attempts (call : Call) (n : Nat) :
    Leads exec (attempts call n) (fun ok tr' c' => c' = c ∧ ∃ δ, tr' = tr ++ δ ∧ (∀ e ∈ δ, e.call = call) ∧
      (ok = true → ∃ δ' e, δ = δ' ++ [e] ∧ e.heard = .reply .ok) ∧
      (ok = false → δ.length = n ∧ ∀ e ∈ δ, e.heard ≠ .reply .ok)) tr c := by
  induction n generalizing tr with
  | zero => exact ⟨rfl, [], by simp, nofun, nofun, fun _ => ⟨rfl, nofun⟩⟩
  | succ n ih =>
      intro o silent
      have hagain : o ≠ .reply .ok → Leads exec (attempts call n) (fun ok tr' c' => c' = c ∧
          ∃ δ, tr' = tr ++ δ ∧ (∀ e ∈ δ, e.call = call) ∧
          (ok = true → ∃ δ' e, δ = δ' ++ [e] ∧ e.heard = .reply .ok) ∧
          (ok = false → δ.length = n + 1 ∧ ∀ e ∈ δ, e.heard ≠ .reply .ok))
          (tr ++ [⟨call, o, silent⟩]) c := by
        intro ho
        refine ih.mono ?_
        rintro ok tr' c' ⟨hc, δ, rfl, hcall, htrue, hfalse⟩
        refine ⟨hc, ⟨call, o, silent⟩ :: δ, by simp, ?_, ?_, ?_⟩
        · exact List.forall_mem_cons.mpr ⟨rfl, hcall⟩
        · intro hok
          obtain ⟨δ', e, rfl, he⟩ := htrue hok
          exact ⟨⟨call, o, silent⟩ :: δ', e, rfl, he⟩
        · intro hok
          obtain ⟨hlen, hnone⟩ := hfalse hok
          exact ⟨by rw [List.length_cons, hlen], List.forall_mem_cons.mpr ⟨ho, hnone⟩⟩
      cases o with
      | reply r =>
          cases r with
          | ok =>
              refine ⟨rfl, _, rfl, ?_, fun _ => ⟨[], _, rfl, rfl⟩, nofun⟩
              intro e he
              rw [List.mem_singleton.mp he]
          | err => exact hagain nofun
          | pong info => exact hagain nofun
      | refused => exact hagain nofun
      | sendFailed => exact hagain nofun
      | noReply => exact hagain nofun

/-- Promotions are asked for this tablet only. -/
def OnlyFor (tablet : TabletName) (tr : Trace sig) : Prop :=
  ∀ e ∈ tr, ∀ n tablet', e.call = .becomePrimary n tablet' → tablet' = tablet

theorem OnlyFor.silent {tablet tablet' : TabletName} (h : OnlyFor tablet tr) (hne : tablet' ≠ tablet) :
    Silent tablet' tr :=
  fun e he n hcall => hne (h e he n tablet' hcall)

theorem OnlyFor.append {tablet : TabletName} {tr' : Trace sig} (h : OnlyFor tablet tr)
    (h' : OnlyFor tablet tr') : OnlyFor tablet (tr ++ tr') := by
  intro e he
  rcases List.mem_append.mp he with he | he
  · exact h e he
  · exact h' e he

theorem onlyFor_of_silent (tablet : TabletName) (h : ∀ tablet', Silent tablet' tr) : OnlyFor tablet tr :=
  fun e he n tablet' hcall => absurd hcall (h tablet' e he n)

/-- `promote_node`. -/
theorem leads_promoteNode (w : NodeId) (tablet : TabletName) :
    Leads exec (promoteNode w tablet) (fun ok tr' c' => c' = c ∧ ∃ δ, tr' = tr ++ δ ∧ OnlyFor tablet δ ∧
      (∀ e ∈ δ, e.call = .becomePrimary w tablet) ∧ (ok = true → LastOk tablet w δ) ∧
      (ok = false → δ.length = 3 ∧ ∀ e ∈ δ, e.heard ≠ .reply .ok)) tr c := by
  refine (leads_attempts (.becomePrimary w tablet) 3).mono ?_
  rintro ok tr' c' ⟨hc, δ, rfl, hcall, htrue, hfalse⟩
  refine ⟨hc, δ, rfl, ?_, hcall, ?_, hfalse⟩
  · intro e he n tablet' heq
    rw [hcall e he] at heq
    exact (Call.becomePrimary.inj heq).2.symm
  · intro hok
    obtain ⟨δ', e, rfl, he⟩ := htrue hok
    exact ⟨δ', e, [], rfl, hcall e (by simp), he, fun e he => absurd he List.not_mem_nil⟩

/-- The tables in a routine that began with `c₀`. -/
structure Routed (c₀ : Tables) (tr : Trace sig) (c : Tables) : Prop where
  groups : SameGroups c₀.tablets c.tablets
  ids : c.nodes.map StorageNode.id = c₀.nodes.map StorageNode.id
  settled : ∀ tablet, Settled c₀.tablets tablet tr c.tablets

/-- A tablet that has not had its turn. -/
structure Untouched (c₀ : Tables) (tablet : TabletName) (tr : Trace sig) (c : Tables) : Prop where
  silent : Silent tablet tr
  primary : primaryOf c.tablets tablet = primaryOf c₀.tablets tablet

variable {c₀ : Tables} {tablet : TabletName}

/-- What the turn of a tablet leaves. -/
structure Turn (c₀ : Tables) (tablet : TabletName) (tr : Trace sig) (c : Tables) (tr' : Trace sig)
    (c' : Tables) : Prop where
  routed : Routed c₀ tr' c'
  others : ∀ tablet', tablet' ≠ tablet → Untouched c₀ tablet' tr c → Untouched c₀ tablet' tr' c'

/-- A turn in which nothing is stored. -/
theorem turn_of_same (h : Routed c₀ tr c) (hun : Untouched c₀ tablet tr c) {δ : Trace sig}
    (hδ : OnlyFor tablet δ) (htab : c'.tablets = c.tablets)
    (hids : c'.nodes.map StorageNode.id = c.nodes.map StorageNode.id)
    (hcalls : (∀ e ∈ δ, ∀ n, e.call = .becomePrimary n tablet → primaryOf c₀.tablets tablet = some n) ∨
      ∀ e ∈ δ, ∀ n, e.call = .becomePrimary n tablet → e.heard ≠ .reply .ok) :
    Turn c₀ tablet tr c (tr ++ δ) c' := by
  refine ⟨⟨by rw [htab]; exact h.groups, hids.trans h.ids, fun tablet' => ?_⟩, fun tablet' hne hu => ?_⟩
  · by_cases ht : tablet' = tablet
    · subst ht
      refine .inl ⟨by rw [htab]; exact hun.primary, ?_⟩
      rcases hcalls with hcalls | hcalls
      · refine .inl (fun e he n hcall => ?_)
        rcases List.mem_append.mp he with he | he
        · exact absurd hcall (hun.silent e he n)
        · exact hcalls e he n hcall
      · refine .inr (fun e he n hcall => ?_)
        rcases List.mem_append.mp he with he | he
        · exact absurd hcall (hun.silent e he n)
        · exact hcalls e he n hcall
    · exact (h.settled tablet').other (hδ.silent ht) (by rw [htab])
  · exact ⟨hu.silent.append (hδ.silent hne), by rw [htab]; exact hu.primary⟩

/-- A turn in which the promoted node is stored. -/
theorem turn_of_stored (h : Routed c₀ tr c) {δ : Trace sig} (hδ : OnlyFor tablet δ) {w : NodeId}
    (hlast : LastOk tablet w δ) {tg : TabletGroup} (htg : groupOf c₀.tablets tablet = some tg)
    (hw : w ∈ tg.nodeIds) (htab : c'.tablets = setPrimary tablet w c.tablets)
    (hids : c'.nodes.map StorageNode.id = c.nodes.map StorageNode.id) :
    Turn c₀ tablet tr c (tr ++ δ) c' := by
  have hother : ∀ tablet', tablet' ≠ tablet → primaryOf c'.tablets tablet' = primaryOf c.tablets tablet' := by
    intro tablet' hne
    rw [htab]
    exact primaryOf_setPrimary_of_ne c.tablets w hne
  refine ⟨⟨?_, hids.trans h.ids, fun tablet' => ?_⟩, fun tablet' hne hu => ?_⟩
  · rw [htab]
    exact sameGroups_trans h.groups (sameGroups_setPrimary tablet w c.tablets)
  · by_cases ht : tablet' = tablet
    · subst ht
      obtain ⟨tg', htg', hsame⟩ := sameGroups_groupOf h.groups htg
      refine .inr ⟨w, ?_, hlast.prepend tr⟩
      rw [htab]
      exact primaryOf_setPrimary htg' (hsame.2.2.2.mem_iff.mpr hw)
    · exact (h.settled tablet').other (hδ.silent ht) (hother tablet' ht)
  · exact ⟨hu.silent.append (hδ.silent hne), (hother tablet' hne).trans hu.primary⟩

/-- Calm before a turn, and after it. -/
theorem Calm.routed {tr' : Trace sig} (hcalm : Calm c tr c' tr') (h : Routed c₀ tr c) : Routed c₀ tr' c' := by
  obtain ⟨δ, rfl, hδ⟩ := hcalm.trace
  refine ⟨by rw [hcalm.tablets]; exact h.groups, hcalm.ids.trans h.ids, fun tablet => ?_⟩
  exact (h.settled tablet).other (hδ tablet) (by rw [hcalm.tablets])

theorem Calm.untouched {tr' : Trace sig} (hcalm : Calm c tr c' tr') (h : Untouched c₀ tablet tr c) :
    Untouched c₀ tablet tr' c' := by
  obtain ⟨δ, rfl, hδ⟩ := hcalm.trace
  exact ⟨h.silent.append (hδ tablet), by rw [hcalm.tablets]; exact h.primary⟩

theorem Turn.calm_before {c₁ : Tables} {tr₁ tr' : Trace sig} (hcalm : Calm c tr c₁ tr₁)
    (h : Turn c₀ tablet tr₁ c₁ tr' c') : Turn c₀ tablet tr c tr' c' :=
  ⟨h.routed, fun tablet' hne hu => h.others tablet' hne (hcalm.untouched hu)⟩

theorem Turn.calm_after {c₁ : Tables} {tr₁ tr' : Trace sig} (h : Turn c₀ tablet tr c tr₁ c₁)
    (hcalm : Calm c₁ tr₁ c' tr') : Turn c₀ tablet tr c tr' c' :=
  ⟨hcalm.routed h.routed, fun tablet' hne hu => hcalm.untouched (h.others tablet' hne hu)⟩

theorem turn_of_calm {tr' : Trace sig} (h : Routed c₀ tr c) (hcalm : Calm c tr c' tr') :
    Turn c₀ tablet tr c tr' c' :=
  ⟨hcalm.routed h, fun _ _ hu => hcalm.untouched hu⟩

/-- A program that is the turn of a tablet. -/
abbrev Turns (c₀ : Tables) (tablet : TabletName) (p : CoordProg Unit) : Prop :=
  ∀ tr c, Routed c₀ tr c → Untouched c₀ tablet tr c →
    Leads exec p (fun _ tr' c' => Turn c₀ tablet tr c tr' c') tr c

/-- A calm part of a turn, and then the rest. -/
theorem Calmly.turn {p : CoordProg α} {f : α → CoordProg Unit} {Q : α → Prop} (hp : Calmly p Q tr c)
    (h : Routed c₀ tr c) (hun : Untouched c₀ tablet tr c)
    (hf : ∀ a tr₁ c₁, Q a → Calm c tr c₁ tr₁ → Routed c₀ tr₁ c₁ → Untouched c₀ tablet tr₁ c₁ →
      Leads exec (f a) (fun _ tr' c' => Turn c₀ tablet tr₁ c₁ tr' c') tr₁ c₁) :
    Leads exec (p >>= f) (fun _ tr' c' => Turn c₀ tablet tr c tr' c') tr c := by
  refine Leads.bind (hp.mono ?_)
  rintro a tr₁ c₁ ⟨hcalm, hq⟩
  refine (hf a tr₁ c₁ hq hcalm (hcalm.routed h) (hcalm.untouched hun)).mono ?_
  intro _ tr' c' hturn
  exact hturn.calm_before hcalm

/-- **A rebuild asks only the primary.** -/
theorem turns_rebuild {plan : RebuildPlan} (hp : primaryOf c₀.tablets plan.tablet = some plan.primary.id) :
    Turns c₀ plan.tablet (rebuild plan) := by
  intro tr c h hun
  refine Calmly.turn (calmly_refreshAndCache plan.primary) h hun ?_
  intro o tr₁ c₁ ho _ h₁ hun₁
  cases o with
  | none => exact turn_of_calm h₁ (.refl c₁ tr₁)
  | some p =>
      refine Calmly.turn (calmly_refreshFollowers plan.followers) h₁ hun₁ ?_
      intro fs tr₂ c₂ _ _ h₂ hun₂
      have hlist : Leads exec (rebuildPrimaryReplicas p.id plan.tablet fs)
          (fun _ tr' c' => Turn c₀ plan.tablet tr₂ c₂ tr' c') tr₂ c₂ := by
        refine Leads.bind ((leads_promoteNode p.id plan.tablet).mono ?_)
        rintro ok tr₃ c₃ ⟨rfl, δ, rfl, hδ, hcall, -, -⟩
        have hturn : Turn c₀ plan.tablet tr₂ c₃ (tr₂ ++ δ) c₃ := by
          refine turn_of_same h₂ hun₂ hδ rfl rfl (.inl ?_)
          intro e he n hn
          rw [hcall e he] at hn
          rw [hp, ← (ho p rfl).1, (Call.becomePrimary.inj hn).1]
        cases ok with
        | false => exact hturn
        | true =>
            exact (calmly_attachFollowers p.id plan.tablet fs).mono
              (fun _ _ _ hcalm => hturn.calm_after hcalm.1)
      refine Leads.bind (hlist.mono ?_)
      intro _ tr₃ c₃ hturn
      exact (calmly_markAlive p.id).mono (fun _ _ _ hcalm => hturn.calm_after hcalm.1)

/-- The candidates are asked one after the other, until one accepts; a stale one is not asked. -/
theorem leads_pickWinner (tablet : TabletName) (maxKnown : Nat) (cs : List Candidate) :
    Leads exec (pickWinner tablet maxKnown cs) (fun o tr' c' => c' = c ∧ ∃ δ, tr' = tr ++ δ ∧
      (∀ e ∈ δ, ∃ cand ∈ cs, maxKnown ≤ cand.lsn ∧ e.call = .becomePrimary cand.primary.id tablet) ∧
      (o = none → ∀ e ∈ δ, e.heard ≠ .reply .ok) ∧
      ∀ w, o = some w → w ∈ cs ∧ LastOk tablet w.primary.id δ ∧
        ∀ e ∈ δ, e.heard = .reply .ok → e.call = .becomePrimary w.primary.id tablet) tr c := by
  induction cs generalizing tr with
  | nil => exact ⟨rfl, [], by simp, nofun, fun _ => nofun, nofun⟩
  | cons cand cs ih =>
      show Leads exec (if cand.lsn < maxKnown then _ else _) _ tr c
      split
      · refine ih.mono ?_
        rintro o tr' c' ⟨hc, δ, htr, hasked, hnone, hsome⟩
        refine ⟨hc, δ, htr, fun e he => ?_, hnone, fun w hw => ?_⟩
        · obtain ⟨cand', hmem, hcand'⟩ := hasked e he
          exact ⟨cand', List.mem_cons_of_mem _ hmem, hcand'⟩
        · exact ⟨List.mem_cons_of_mem _ (hsome w hw).1, (hsome w hw).2⟩
      · rename_i hfresh
        refine Leads.bind ((leads_promoteNode cand.primary.id tablet).mono ?_)
        rintro ok tr₁ c₁ ⟨rfl, δ, rfl, -, hcall, htrue, hfalse⟩
        have hasked : ∀ e ∈ δ, ∃ cand' ∈ cand :: cs, maxKnown ≤ cand'.lsn ∧
            e.call = .becomePrimary cand'.primary.id tablet :=
          fun e he => ⟨cand, List.mem_cons_self, by omega, hcall e he⟩
        cases ok with
        | true =>
            refine ⟨rfl, δ, rfl, hasked, nofun, ?_⟩
            rintro w ⟨⟩
            exact ⟨List.mem_cons_self, htrue rfl, fun e he _ => hcall e he⟩
        | false =>
            refine ih.mono ?_
            rintro o tr' c' ⟨hc, δ', rfl, hasked', hnone, hsome⟩
            refine ⟨hc, δ ++ δ', by simp, fun e he => ?_, fun ho e he => ?_, fun w hw => ?_⟩
            · rcases List.mem_append.mp he with he | he
              · exact hasked e he
              · obtain ⟨cand', hmem, hcand'⟩ := hasked' e he
                exact ⟨cand', List.mem_cons_of_mem _ hmem, hcand'⟩
            · rcases List.mem_append.mp he with he | he
              · exact (hfalse rfl).2 e he
              · exact hnone ho e he
            · obtain ⟨hmem, hlast, honly⟩ := hsome w hw
              refine ⟨List.mem_cons_of_mem _ hmem, hlast.prepend δ, fun e he hok => ?_⟩
              rcases List.mem_append.mp he with he | he
              · exact absurd hok ((hfalse rfl).2 e he)
              · exact honly e he hok

/-- **An election stores the winner.** -/
theorem turns_elect {sort : List Candidate → List Candidate} (hsort : ∀ l, (sort l).Perm l)
    {plan : FailurePlan} {tg : TabletGroup} (htg : groupOf c₀.tablets plan.tablet = some tg)
    (hcs : ∀ cand ∈ plan.candidates, cand.primary.id ∈ tg.nodeIds ∧
      cand.primary.id ∈ c₀.nodes.map StorageNode.id) : Turns c₀ plan.tablet (elect sort plan) := by
  intro tr c h hun
  refine Calmly.turn (calmly_refreshCandidates plan.tablet plan.candidates plan.maxKnown) h hun ?_
  rintro ⟨cs, maxKnown⟩ tr₁ c₁ hq _ h₁ hun₁
  refine Leads.bind ((leads_pickWinner plan.tablet maxKnown (sort cs)).mono ?_)
  rintro o tr₂ c₂ ⟨rfl, δ, rfl, hasked, hnone, hsome⟩
  have hδ : OnlyFor plan.tablet δ := by
    intro e he n tablet' hcall
    obtain ⟨cand, -, -, heq⟩ := hasked e he
    exact (Call.becomePrimary.inj (heq.symm.trans hcall)).2.symm
  cases o with
  | none => exact turn_of_same h₁ hun₁ hδ rfl rfl (.inr (fun e he _ _ => hnone rfl e he))
  | some w =>
      obtain ⟨hmem, hlast, -⟩ := hsome w rfl
      obtain ⟨cand₀, hcand₀, heq⟩ := hq w ((hsort cs).mem_iff.mp hmem)
      obtain ⟨hgroup, hnode⟩ := hcs cand₀ hcand₀
      rw [← heq] at hgroup hnode
      refine Leads.bind ((calmly_attachFollowers w.primary.id plan.tablet w.followers).mono ?_)
      rintro _ tr₃ c₃ ⟨hcalm, -⟩
      obtain ⟨δ', rfl, hδ'⟩ := hcalm.trace
      have hfind : (find c₃.nodes w.primary.id).isSome = true := by
        rw [find_isSome_iff, hcalm.ids, h₁.ids]
        exact hnode
      have hexec : (exec (.storeWinner plan.tablet w.primary.id) c₃).2 =
          ({ c₃ with tablets := setPrimary plan.tablet w.primary.id c₃.tablets } : Tables).update w.primary.id
            (fun e => { e with alive := true }) := if_pos hfind
      show Turn c₀ plan.tablet tr₁ c₂ ((tr₁ ++ δ) ++ δ') (exec (.storeWinner plan.tablet w.primary.id) c₃).2
      rw [hexec, List.append_assoc]
      refine turn_of_stored h₁ (hδ.append (onlyFor_of_silent plan.tablet hδ')) (hlast.append (hδ' _)) htg
        hgroup ?_ ?_
      · show setPrimary plan.tablet w.primary.id c₃.tablets = _
        rw [hcalm.tablets]
      · exact (ids_update (f := fun e => { e with alive := true }) _ _ (fun _ => rfl)).trans hcalm.ids

/-- **A recovery that promotes stores the recovered node.** -/
theorem turns_promoteRecovered {tg : TabletGroup} (htg : groupOf c₀.tablets tablet = some tg)
    {live : StorageNode} (hlive : live.id ∈ tg.nodeIds) (followers : List StorageNode) :
    Turns c₀ tablet (promoteRecovered tablet live followers) := by
  intro tr c h hun
  refine Leads.bind ((leads_promoteNode live.id tablet).mono ?_)
  rintro ok tr₁ c₁ ⟨rfl, δ, rfl, hδ, hcall, htrue, hfalse⟩
  cases ok with
  | false => exact turn_of_same h hun hδ rfl rfl (.inr (fun e he _ _ => (hfalse rfl).2 e he))
  | true =>
      refine Leads.bind ((calmly_attachFollowers live.id tablet followers).mono ?_)
      rintro _ tr₂ c₂ ⟨hcalm, -⟩
      obtain ⟨δ', rfl, hδ'⟩ := hcalm.trace
      show Turn c₀ tablet tr c₁ ((tr ++ δ) ++ δ') (exec (.storeRecovered tablet live.id) c₂).2
      rw [List.append_assoc]
      refine turn_of_stored h (hδ.append (onlyFor_of_silent tablet hδ')) ((htrue rfl).append (hδ' _)) htg
        hlive ?_ ?_
      · show setPrimary tablet live.id c₂.tablets = _
        rw [hcalm.tablets]
      · exact (ids_update (f := fun e => { e with alive := true }) _ _ (fun _ => rfl)).trans hcalm.ids

theorem turns_recover {plan : RecoveryPlan} {tg : TabletGroup}
    (htg : groupOf c₀.tablets plan.tablet = some tg) (hlive : plan.live.id ∈ tg.nodeIds) :
    Turns c₀ plan.tablet (recover plan) := by
  intro tr c h hun
  refine Calmly.turn (calmly_refreshAndCache plan.live) h hun ?_
  intro o tr₁ c₁ ho _ h₁ hun₁
  cases o with
  | none => exact turn_of_calm h₁ (.refl c₁ tr₁)
  | some live =>
      refine Calmly.turn (calmly_refreshFollowers plan.followers) h₁ hun₁ ?_
      intro followers tr₂ c₂ _ _ h₂ hun₂
      refine Calmly.turn (calmly_refreshPrimary plan followers) h₂ hun₂ ?_
      intro primary tr₃ c₃ _ _ h₃ hun₃
      have hpromote := turns_promoteRecovered htg (by rw [(ho live rfl).1]; exact hlive)
        followers tr₃ c₃ h₃ hun₃
      show Leads (S := sig) exec (if _ then _ else _) _ tr₃ c₃
      split
      · exact turn_of_calm h₃ (.refl c₃ tr₃)
      · cases primary with
        | none => exact hpromote
        | some p =>
            show Leads (S := sig) exec (if _ then _ else _) _ tr₃ c₃
            split
            · exact (calmly_rejoin plan.tablet live p).mono (fun _ _ _ hcalm => turn_of_calm h₃ hcalm.1)
            · exact hpromote

/-! ### Turn by turn -/

/-- The turns of different tablets. -/
theorem leads_each {β : Type} {f : β → CoordProg Unit} {name : β → TabletName} {plans : List β}
    (hnames : (plans.map name).Nodup) (hturn : ∀ plan ∈ plans, Turns c₀ (name plan) (f plan))
    (h : Routed c₀ tr c) (hun : ∀ plan ∈ plans, Untouched c₀ (name plan) tr c) :
    Leads exec (each f plans) (fun _ tr' c' => Routed c₀ tr' c' ∧
      ∀ tablet, tablet ∉ plans.map name → Untouched c₀ tablet tr c → Untouched c₀ tablet tr' c') tr c := by
  induction plans generalizing tr c with
  | nil => exact ⟨h, fun _ _ hu => hu⟩
  | cons plan plans ih =>
      obtain ⟨hnot, hnames⟩ := List.nodup_cons.mp hnames
      refine Leads.bind ((hturn plan List.mem_cons_self tr c h (hun plan List.mem_cons_self)).mono ?_)
      intro _ tr₁ c₁ hone
      have hne : ∀ plan' ∈ plans, name plan' ≠ name plan :=
        fun plan' hmem heq => hnot (heq ▸ List.mem_map_of_mem hmem)
      refine (ih hnames (fun plan' hmem => hturn plan' (List.mem_cons_of_mem _ hmem)) hone.routed
        (fun plan' hmem => hone.others _ (hne plan' hmem) (hun plan' (List.mem_cons_of_mem _ hmem)))).mono ?_
      rintro _ tr₂ c₂ ⟨h₂, hrest⟩
      refine ⟨h₂, fun tablet htablet hu => ?_⟩
      rw [List.map_cons, List.mem_cons, not_or] at htablet
      exact hrest tablet htablet.2 (hone.others tablet htablet.1 hu)

theorem routed_refl (c : Tables) : Routed c [] c :=
  ⟨sameGroups_refl _, rfl, fun _ => settled_of_silent (fun _ he => absurd he List.not_mem_nil) rfl⟩

theorem untouched_refl (c : Tables) (tablet : TabletName) : Untouched c tablet [] c :=
  ⟨fun _ he => absurd he List.not_mem_nil, rfl⟩

/-- Plans have the names of their tablets. -/
theorem names_filterMap {β : Type} {plan : TabletGroup → Option β} {name : β → TabletName}
    (hplan : ∀ tg b, plan tg = some b → name b = tg.name) (l : List TabletGroup) :
    ((l.filterMap plan).map name).Sublist (l.map TabletGroup.name) := by
  induction l with
  | nil => exact List.Sublist.refl _
  | cons tg l ih =>
      cases hb : plan tg with
      | none =>
          rw [List.filterMap_cons_none hb]
          exact ih.trans (List.sublist_cons_self _ _)
      | some b =>
          rw [List.filterMap_cons_some hb, List.map_cons, List.map_cons, hplan tg b hb]
          exact ih.cons_cons _

end NCloud.Coordinator
