import NCloud.Lib.Sequential
import NCloud.Replication.Cluster

/-!
# Conditional puts over a network

`KVClient::cput` sends its request up to eight times, until it reads a `+OK`. A CPUT
that has happened and whose answer is lost is sent again, and this time the cell does
not hold the expected value: the client tells its caller that nothing was written.

The storage node's side is `replicated_cput` with what `forward_to_all` returns given
from outside; `replicatedCput_of_runs` says that the program of the replication manager
does no more and no less to the tablet of a primary.
-/

namespace NCloud.Client

open Process Wire

/-! ## The storage node -/

/-- `KVResponse`, as far as writes look at it. -/
structure KVResponse where
  ok : Bool
  error : String

/-- The CPUT branch of `handle_request`. -/
def onCput : KVPutStatus → KVResponse
  | .ok => ⟨true, ""⟩
  | .quorumUnavailable => ⟨false, "no quorum"⟩
  | .mismatch => ⟨false, "value mismatch"⟩
  | .error => ⟨false, "value mismatch"⟩

/-- What a CPUT meets at the primary. -/
structure Conditions where
  /-- Records the disk takes. -/
  room : Nat
  /-- What `forward_to_all` returns. -/
  quorum : Bool
  /-- Records the disk takes for the rollback. -/
  roomBack : Nat

variable (row col v1 v2 : Field)

/-- `replicated_cput` at a primary. -/
def replicatedCput (c : Conditions) (t : Replica) : KVPutStatus × Replica :=
  if t.get row col ≠ some v1 then (.mismatch, t)
  else
    match t.cput c.room row col v1 v2 with
    | (none, t) => (.error, t)
    | (some _, t) =>
        if c.quorum then (.ok, t)
        else (.quorumUnavailable, (t.put c.roomBack row col v1).2)

/-! ## The client -/

/-- What becomes of one attempt of `exec_row`. -/
inductive Attempt where
  /-- There is no connection to borrow. -/
  | noConnection
  /-- The storage node never gets the whole request. -/
  | requestLost
  /-- A node that is not primary answers. -/
  | notPrimary
  /-- The primary handles it; the answer is read, or it is lost. -/
  | handled (c : Conditions) (answered : Bool)

/-- What `cput` does on one connection, and what happens to the tablet of the primary. -/
def sendCput : Attempt → Replica → Bool × Replica
  | .noConnection, t => (false, t)
  | .requestLost, t => (false, t)
  | .notPrimary, t => ((onCput .error).ok, t)
  | .handled c answered, t =>
      let q := replicatedCput row col v1 v2 c t
      (answered && (onCput q.1).ok, q.2)

/-- The loop of `exec_row`, with `left` attempts to go. -/
def execLoop {σ : Type} (op : Attempt → σ → Bool × σ) (fate : Nat → Attempt) :
    (left attempt : Nat) → σ → Bool × σ
  | 0, _, s => (false, s)
  | left + 1, attempt, s =>
      match op (fate attempt) s with
      | (true, s) => (true, s)
      | (false, s) => execLoop op fate left (attempt + 1) s

/-- `kAttempts`. -/
def attempts : Nat := 8

/-- `exec_row`; `found` says whether the first lookup found a target. -/
def execRow {σ : Type} (op : Attempt → σ → Bool × σ) (found : Bool) (fate : Nat → Attempt) (s : σ) :
    Bool × σ :=
  if !found then (false, s) else execLoop op fate attempts 0 s

/-- `KVClient::cput`. -/
def cput (found : Bool) (fate : Nat → Attempt) (t : Replica) : Bool × Replica :=
  execRow (sendCput row col v1 v2) found fate t

/-- What the caller is told is what happened: true exactly when the cell held `v1` and
now holds `v2`, and false only when it is as it was. -/
structure Truthful (t : Replica) (q : Bool × Replica) : Prop where
  told : q.1 = true ↔ t.get row col = some v1 ∧ q.2.get row col = some v2
  unchanged : q.1 = false → q.2.get row col = t.get row col

namespace Attempt

/-- The attempt puts the new value where the old one is: the record is logged, and if
there is no quorum the rollback is not. -/
def swaps : Attempt → Bool
  | handled c _ => decide (c.room ≠ 0) && (c.quorum || decide (c.roomBack = 0))
  | _ => false

/-- The client reads a `+OK` for it. -/
def confirms : Attempt → Bool
  | handled c answered => c.quorum && answered
  | _ => false

end Attempt

/-- The first of the attempts that swaps, if there is one, is confirmed. -/
def FirstConfirmed (fate : Nat → Attempt) (first left : Nat) : Prop :=
  ∀ k, first ≤ k → k < first + left → (fate k).swaps = true →
    (∀ j, first ≤ j → j < k → (fate j).swaps = false) → (fate k).confirms = true

variable {row col v1 v2} {t : Replica}

/-! ## One attempt -/

/-- Where the cell does not hold the old value nothing happens. -/
theorem sendCput_mismatch (h : t.get row col ≠ some v1) (a : Attempt) :
    sendCput row col v1 v2 a t = (false, t) := by
  cases a with
  | handled c answered =>
      simp only [sendCput, replicatedCput, if_pos h]
      rw [show (onCput .mismatch).ok = false from rfl, Bool.and_false]
  | _ => rfl

/-- Where it does, the attempt is confirmed or not and swaps or not. -/
theorem sendCput_match (h : t.get row col = some v1) (a : Attempt) :
    (sendCput row col v1 v2 a t).1 = (a.swaps && a.confirms) ∧
      (sendCput row col v1 v2 a t).2.get row col = if a.swaps then some v2 else some v1 := by
  have hseen : t.bloom.mayContain row.1 = true := Replica.mayContain_of_get h
  have hagain : ((t.record (.put row col v2)).apply (.put row col v2)).bloom.mayContain row.1 = true :=
    Replica.filterFor_mono (t.record (.put row col v2)) (.put row col v2) hseen
  cases a with
  | handled c answered =>
      obtain ⟨room, quorum, roomBack⟩ := c
      by_cases hroom : room = 0
      · subst hroom
        simp [sendCput, replicatedCput, h, Replica.cput_eq, Attempt.swaps, onCput]
      · cases quorum with
        | true =>
            simp [sendCput, replicatedCput, h, Replica.cput_eq, hroom, Attempt.swaps,
              Attempt.confirms, onCput, Replica.get_put hseen]
        | false =>
            by_cases hback : roomBack = 0
            · simp [sendCput, replicatedCput, h, Replica.cput_eq, Replica.put_eq, hroom, hback,
                Attempt.swaps, Attempt.confirms, onCput, Replica.get_put hseen]
            · simp [sendCput, replicatedCput, h, Replica.cput_eq, Replica.put_eq, hroom, hback,
                Attempt.swaps, Attempt.confirms, onCput, Replica.get_put hagain]
  | _ => exact ⟨rfl, h⟩

/-! ## All attempts -/

theorem execLoop_mismatch (h : t.get row col ≠ some v1) (fate : Nat → Attempt) (left first : Nat) :
    execLoop (sendCput row col v1 v2) fate left first t = (false, t) := by
  induction left generalizing first with
  | zero => rfl
  | succ left ih =>
      rw [execLoop, sendCput_mismatch h]
      exact ih (first + 1)

/-- Only the cell matters of the tablet before. -/
theorem Truthful.congr {t' : Replica} {q : Bool × Replica} (h : t'.get row col = t.get row col) :
    Truthful row col v1 v2 t' q ↔ Truthful row col v1 v2 t q := by
  constructor
  · rintro ⟨htold, hsame⟩
    rw [h] at htold hsame
    exact ⟨htold, hsame⟩
  · rintro ⟨htold, hsame⟩
    rw [← h] at htold hsame
    exact ⟨htold, hsame⟩

/-- An attempt that does not swap may be left out. -/
theorem FirstConfirmed.succ_iff {fate : Nat → Attempt} {first left : Nat} (h : (fate first).swaps = false) :
    FirstConfirmed fate first (left + 1) ↔ FirstConfirmed fate (first + 1) left := by
  constructor
  · intro hf k hk hlt hs hbefore
    refine hf k (by omega) (by omega) hs (fun j hj hjk => ?_)
    rcases Nat.eq_or_lt_of_le hj with rfl | hj
    · exact h
    · exact hbefore j hj hjk
  · intro hf k hk hlt hs hbefore
    rcases Nat.eq_or_lt_of_le hk with rfl | hk
    · exact absurd (hs.symm.trans h) (by simp)
    · exact hf k hk (by omega) hs (fun j hj hjk => hbefore j (by omega) hjk)

/-- The loop, on a cell that holds the old value. -/
theorem truthful_execLoop_iff (hne : v1 ≠ v2) (h : t.get row col = some v1) (fate : Nat → Attempt)
    (left first : Nat) :
    Truthful row col v1 v2 t (execLoop (sendCput row col v1 v2) fate left first t) ↔
      FirstConfirmed fate first left := by
  induction left generalizing first t with
  | zero =>
      refine iff_of_true ⟨?_, fun _ => rfl⟩ (fun k hk hlt => by omega)
      refine iff_of_false nofun ?_
      rintro ⟨-, h2⟩
      exact hne (Option.some.inj (h.symm.trans h2))
  | succ left ih =>
      obtain ⟨htold, hcell⟩ := @sendCput_match row col v1 v2 t h (fate first)
      rw [execLoop]
      generalize sendCput row col v1 v2 (fate first) t = q at htold hcell
      obtain ⟨told, t'⟩ := q
      cases hswap : (fate first).swaps with
      | false =>
          rw [hswap] at htold hcell
          obtain rfl : told = false := htold
          have hcell : t'.get row col = some v1 := hcell
          rw [FirstConfirmed.succ_iff hswap, ← ih hcell, Truthful.congr (hcell.trans h.symm)]
      | true =>
          rw [hswap] at htold hcell
          have hcell : t'.get row col = some v2 := hcell
          cases hconf : (fate first).confirms with
          | true =>
              obtain rfl : told = true := htold.trans hconf
              refine iff_of_true ⟨iff_of_true rfl ⟨h, hcell⟩, nofun⟩ ?_
              intro k hk _ _ hbefore
              rcases Nat.eq_or_lt_of_le hk with rfl | hk
              · exact hconf
              · exact absurd (hswap.symm.trans (hbefore first (Nat.le_refl _) hk)) (by simp)
          | false =>
              obtain rfl : told = false := htold.trans hconf
              -- from now on the cell does not hold the old value
              have hgone : t'.get row col ≠ some v1 := by
                rw [hcell]
                exact fun heq => hne (Option.some.inj heq).symm
              show Truthful row col v1 v2 t
                (execLoop (sendCput row col v1 v2) fate left (first + 1) t') ↔ _
              rw [execLoop_mismatch hgone]
              refine iff_of_false ?_ ?_
              · rintro ⟨-, hsame⟩
                exact hgone ((hsame rfl).trans h)
              · intro hf
                have := hf first (Nat.le_refl _) (by omega) hswap (fun j hj hjk => by omega)
                exact absurd (hconf.symm.trans this) (by simp)

/--
**When a conditional put is truthful.**

For every tablet, every two different values and every pattern of attempts: exactly
when the cell does not hold the expected value, or no target was found, or the first
attempt that takes effect is the one whose `+OK` is read.
-/
theorem truthful_cput_iff (row col v1 v2 : Field) (hne : v1 ≠ v2) (found : Bool) (fate : Nat → Attempt)
    (t : Replica) :
    Truthful row col v1 v2 t (cput row col v1 v2 found fate t) ↔
      t.get row col ≠ some v1 ∨ found = false ∨ FirstConfirmed fate 0 attempts := by
  cases found with
  | false =>
      refine iff_of_true ⟨iff_of_false nofun ?_, fun _ => rfl⟩ (.inr (.inl rfl))
      rintro ⟨h1, h2⟩
      exact hne (Option.some.inj (h1.symm.trans h2))
  | true =>
      by_cases h : t.get row col = some v1
      · have hiff := truthful_execLoop_iff hne h fate attempts 0
        refine hiff.trans ⟨fun hf => .inr (.inr hf), ?_⟩
        rintro (hn | hf | hf)
        · exact absurd h hn
        · exact absurd hf (by simp)
        · exact hf
      · have hloop := @execLoop_mismatch row col v1 v2 t h fate attempts 0
        show Truthful row col v1 v2 t (execLoop (sendCput row col v1 v2) fate attempts 0 t) ↔ _
        rw [hloop]
        exact iff_of_true ⟨iff_of_false nofun (fun hc => h hc.1), fun _ => rfl⟩ (.inl h)

section Lost

open Trio

/-- A tablet whose cell `x`, `x` holds `x`. -/
def oneCell : Replica := (Replica.empty.put 1 x x x).2

/-- The primary has its disk and its quorum. -/
def fair : Conditions := ⟨1, true, 1⟩

/-- The first request is lost, the second handled and answered. -/
def secondTry : Nat → Attempt
  | 0 => .requestLost
  | _ => .handled fair true

theorem truthful_cput_iff_secondTry :
    Truthful x x x y oneCell (cput x x x y true secondTry oneCell)
      ∧ (cput x x x y true secondTry oneCell).1 = true := by
  refine ⟨(truthful_cput_iff x x x y (by decide) true secondTry oneCell).mpr (.inr (.inr ?_)), by decide⟩
  intro k _ _ hs _
  cases k with
  | zero => exact absurd hs (by decide)
  | succ k => rfl

/-- The first answer is lost, and nothing after it. -/
def answerLost : Nat → Attempt
  | 0 => .handled fair false
  | _ => .handled fair true

/-- **The swap is made, and the caller is told that it is not.** -/
theorem not_truthful_answerLost : ¬ Truthful x x x y oneCell (cput x x x y true answerLost oneCell) := by
  rintro ⟨-, hsame⟩
  exact absurd (hsame (by decide)) (by decide)

end Lost

/-! ## The program of the replication manager -/

section Program

variable (sort : List CoordProg.Candidate → List CoordProg.Candidate) {i depth : Nat}
  {net : Net clusterSig} {n : NodeId} {node : Node} {w : World} {α : Type}

/-- An action at the node itself. -/
theorem wp_act {a : NodeAct} {f : a.Res → ClusterProg α} {Q : α → World → Prop} (h : w.node n = node)
    (hf : ∀ io r node' w', node.exec i io a = some (r, node') → w'.node n = node' →
      Wp (cluster sort) i net (fun _ => True) depth (.node n) (f r) Q w') :
    Wp (cluster sort) i net (fun _ => True) depth (.node n) (Manager.act a >>= f) Q w := by
  refine Wp.perform trivial (fun io r w₁ he => ?_)
  obtain ⟨node', hn, rfl⟩ := World.exec_node he
  rw [h] at hn
  exact hf io r node' _ hn (World.setNode_self w n node')

/-- One that only looks. -/
theorem wp_look {a : NodeAct} {f : a.Res → ClusterProg α} {Q : α → World → Prop} (h : w.node n = node)
    {v : a.Res} (hread : ∀ io, node.exec i io a = some (v, node))
    (hf : ∀ w', w'.node n = node →
      Wp (cluster sort) i net (fun _ => True) depth (.node n) (f v) Q w') :
    Wp (cluster sort) i net (fun _ => True) depth (.node n) (Manager.act a >>= f) Q w := by
  refine wp_act sort h (fun io r node' w₁ he h₁ => ?_)
  obtain ⟨rfl, rfl⟩ := Prod.mk.inj (Option.some.inj ((hread io).symm.trans he))
  exact hf w₁ h₁

/-- What runs at another node does not change this one. -/
theorem wp_elsewhere {m : NodeId} (hm : n ≠ m) {C : Call → Prop}
    (hC : ∀ c, C c → ∀ w d, w.node n = node →
      Wp (cluster sort) i net (fun _ => True) d (.node c.target) (Manager.handler c)
        (fun _ w' => w'.node n = node ∧ True) w)
    {p : ClusterProg α} (hp : p.Only (fun _ => True) C) (h : w.node n = node) :
    Wp (cluster sort) i net (fun _ => True) depth (.node m) p (fun _ w' => w'.node n = node) w := by
  induction p generalizing w with
  | ret a => exact h
  | act a k ih =>
      refine ⟨trivial, fun io x w₁ he => ih x (hp.2 x) ?_⟩
      cases a with
      | node a =>
          obtain ⟨node', -, rfl⟩ := World.exec_node he
          exact (World.setNode_of_ne hm).trans h
      | coord a => exact absurd he (by simp [cluster, World.exec])
  | call c k ih =>
      exact Wp.ask (R := fun _ => True) trivial h (fun d => hC c hp.1 w d h)
        (fun o w₁ h₁ _ => ih o (hp.2 o) h₁)

/-- Copying rows changes nothing. -/
theorem wp_copyRows (lsn : Nat) (order : List Field) (rows : List (Field × Cols)) (missed : Bool)
    (h : w.node n = node) :
    Wp (cluster sort) i net (fun _ => True) depth (.node n) (Manager.copyRows lsn order rows missed)
      (fun _ w' => w'.node n = node) w := by
  induction order generalizing rows missed w with
  | nil => exact h
  | cons key order ih =>
      refine wp_act sort h (fun io (row : Cols × Bool) node' w₁ he h₁ => ?_)
      obtain ⟨cols, -, heq⟩ := Option.map_eq_some_iff.mp he
      obtain ⟨-, rfl⟩ := Prod.mk.inj heq
      exact ih _ _ h₁

/-- A snapshot takes its lock and gives it back. -/
theorem wp_snapshotBlob (h : w.node n = node) :
    Wp (cluster sort) i net (fun _ => True) depth (.node n) Manager.snapshotBlob
      (fun _ w' => w'.node n = node) w := by
  refine wp_act sort h (fun io (header : Header) node' w₁ he h₁ => ?_)
  obtain ⟨-, he⟩ := Option.ite_none_right_eq_some.mp he
  obtain ⟨-, rfl⟩ := Prod.mk.inj (Option.some.inj he)
  refine Wp.bind ((wp_copyRows sort header.log.length header.order [] false h₁).mono (fun q w₂ h₂ => ?_))
  refine wp_act sort h₂ (fun io r node₃ w₃ he h₃ => ?_)
  obtain ⟨-, rfl⟩ := Prod.mk.inj (Option.some.inj he)
  exact h₃

/-- SYNC_FROM leaves everything as it is. -/
theorem wp_syncFrom (ver lsn : Nat) (h : w.node n = node) :
    Wp (cluster sort) i net (fun _ => True) depth (.node n) (Manager.buildSyncResponse ver lsn)
      (fun _ w' => w'.node n = node ∧ True) w := by
  have hsnap : ∀ w₁, w₁.node n = node → Wp (cluster sort) i net (fun _ => True) depth (.node n)
      (Manager.snapshotBlob >>= fun image => pure (Reply.sync (.snapshot image)))
      (fun _ w' => w'.node n = node ∧ True) w₁ :=
    fun w₁ h₁ => Wp.bind ((wp_snapshotBlob sort h₁).mono (fun _ _ h₂ => ⟨h₂, trivial⟩))
  refine wp_look sort h (fun _ => rfl) (fun w₁ h₁ => ?_)
  split
  · refine wp_act sort h₁ (fun io delta node' w₂ he h₂ => ?_)
    obtain ⟨-, he⟩ := Option.ite_none_right_eq_some.mp he
    obtain ⟨-, rfl⟩ := Prod.mk.inj (Option.some.inj he)
    exact ⟨h₂, trivial⟩
  · refine wp_look sort h₁ (fun _ => rfl) (fun w₂ h₂ => ?_)
    split
    · refine wp_act sort h₂ (fun io delta node' w₃ he h₃ => ?_)
      obtain ⟨-, he⟩ := Option.ite_none_right_eq_some.mp he
      obtain ⟨-, rfl⟩ := Prod.mk.inj (Option.some.inj he)
      split
      · exact hsnap w₃ h₃
      · split
        · exact hsnap w₃ h₃
        · exact ⟨h₃, trivial⟩
    · exact hsnap w₂ h₂

/-- What a primary sends to a replica. -/
theorem wp_handler {r : NodeId} (hr : n ≠ r) {c : Call}
    (hc : (∃ lsn op, c = .replicate r lsn op) ∨ c = .becomeSecondary r n) (h : w.node n = node) :
    Wp (cluster sort) i net (fun _ => True) depth (.node c.target) (Manager.handler c)
      (fun _ w' => w'.node n = node ∧ True) w := by
  rcases hc with ⟨lsn, op, rfl⟩ | rfl
  · have honly := (Manager.local_onReplicate lsn op).mono (fun _ _ => trivial) (fun _ h => h)
    exact (wp_elsewhere sort hr (fun _ hf => hf.elim) honly h).mono (fun _ _ h₁ => ⟨h₁, trivial⟩)
  · have honly : (Manager.becomeSecondaryAndSync n).Only (fun _ => True)
        (fun c => ∃ ver lsn, c = Call.syncFrom n ver lsn) :=
      ⟨trivial, fun _ => ⟨trivial, fun _ => ⟨trivial, fun ver => ⟨trivial, fun lsn => ⟨⟨ver, lsn, rfl⟩, fun o =>
        (Manager.local_install o).mono (fun _ _ => trivial) (fun _ h => h.elim)⟩⟩⟩⟩⟩
    refine Wp.bind ((wp_elsewhere sort hr ?_ honly h).mono (fun ok w₁ h₁ => ?_))
    · intro c hc w₁ d h₁
      obtain ⟨ver, lsn, rfl⟩ := hc
      exact wp_syncFrom sort ver lsn h₁
    · split
      · exact ⟨h₁, trivial⟩
      · exact ⟨h₁, trivial⟩

theorem wp_forwardToReplica {r : NodeId} (hr : n ≠ r) (lsn : Nat) (op : Op) (h : w.node n = node) :
    Wp (cluster sort) i net (fun _ => True) depth (.node n) (Manager.forwardToReplica r lsn op)
      (fun _ w' => w'.node n = node) w := by
  have hc : ∀ w₁ d, w₁.node n = node → Wp (cluster sort) i net (fun _ => True) d (.node r)
      (Manager.handler (.replicate r lsn op)) (fun _ w' => w'.node n = node ∧ True) w₁ :=
    fun w₁ d h₁ => wp_handler sort hr (.inl ⟨lsn, op, rfl⟩) h₁
  refine Wp.ask (R := fun _ => True) trivial h (fun d => hc w d h) (fun o w₁ h₁ _ => ?_)
  cases o with
  | sendFailed =>
      exact Wp.ask (R := fun _ => True) trivial h₁ (fun d => hc w₁ d h₁) (fun _ _ h₂ _ => h₂)
  | _ => exact h₁

theorem wp_forwardEach (lsn : Nat) (op : Op) (ps : List ReplicaPtr)
    (hps : ∀ p ∈ ps, n ≠ p.id ∧ p.made = node.cleared) (acked : Nat) (h : w.node n = node) :
    Wp (cluster sort) i net (fun _ => True) depth (.node n) (Manager.forwardEach n lsn op ps acked)
      (fun _ w' => w'.node n = node) w := by
  induction ps generalizing acked w with
  | nil => exact h
  | cons p ps ih =>
      obtain ⟨hp, hmade⟩ := hps p List.mem_cons_self
      have hps : ∀ q ∈ ps, n ≠ q.id ∧ q.made = node.cleared := fun q hq => hps q (List.mem_cons_of_mem _ hq)
      have hread : ∀ io, node.exec i io (.readReplica p) = some (p.id, node) := by
        intro io
        show some (node.readReplica io p, node) = _
        unfold Node.readReplica
        rw [if_pos hmade]
      have hnext : ∀ (ok : Bool) w₁, w₁.node n = node → Wp (cluster sort) i net (fun _ => True) depth
          (.node n) (Manager.act (.setReplicaAlive p p.id ok) >>= fun _ =>
            Manager.forwardEach n lsn op ps (if ok then acked + 1 else acked))
          (fun _ w' => w'.node n = node) w₁ :=
        fun ok w₁ h₁ => wp_look sort h₁ (fun _ => rfl) (fun w₂ h₂ => ih hps _ h₂)
      refine wp_look sort h hread (fun w₁ h₁ => ?_)
      refine Wp.bind (Wp.bind ((wp_forwardToReplica sort hp lsn op h₁).mono (fun ok w₂ h₂ => ?_)))
      split
      · exact hnext true w₂ h₂
      · refine Wp.bind (Wp.ask (R := fun _ => True) trivial h₂
          (fun d => wp_handler sort hp (.inr rfl) h₂) (fun o w₃ h₃ _ => ?_))
        show Wp _ _ _ _ _ _ (if Manager.isOk o then _ else _) _ _
        split
        · exact (wp_forwardToReplica sort hp lsn op h₃).mono hnext
        · exact hnext false w₃ h₃

/-- `forward_to_all` leaves the primary as it is. -/
theorem wp_forwardToAll (lsn : Nat) (op : Op) (hself : n ∉ node.replicas) (h : w.node n = node) :
    Wp (cluster sort) i net (fun _ => True) depth (.node n) (Manager.forwardToAll n lsn op)
      (fun _ w' => w'.node n = node) w := by
  refine wp_look sort h (fun _ => rfl) (fun w₁ h₁ => ?_)
  split
  · exact h₁
  · refine Wp.bind ((wp_forwardEach sort lsn op _ (fun p hp => ?_) 0 h₁).mono (fun _ _ h₂ => h₂))
    obtain ⟨id, hid, rfl⟩ := List.mem_map.mp hp
    exact ⟨fun heq => hself (heq ▸ hid), rfl⟩

theorem wp_finish {status : KVPutStatus} {t : Replica} (h : (w.node n).tablet = t) :
    Wp (cluster sort) i net (fun _ => True) depth (.node n) (Manager.finish status)
      (fun st w' => st = status ∧ (w'.node n).tablet = t) w := by
  refine wp_act sort rfl (fun io r node' w₁ he h₁ => ⟨rfl, ?_⟩)
  obtain ⟨-, rfl⟩ := Prod.mk.inj (Option.some.inj he)
  rw [h₁]
  exact h

/-- **The actions of a `put` come to what it does in one piece.** -/
theorem wp_put (h : w.node n = node) :
    Wp (cluster sort) i net (fun _ => True) depth (.node n) (Manager.put row col v1)
      (fun lsn w' => ∃ io, lsn = (node.tablet.put io row col v1).1
        ∧ w'.node n = node.withTablet (node.tablet.put io row col v1).2) w := by
  refine wp_act sort h (fun _ _ node₁ w₁ he h₁ => ?_)
  obtain ⟨hfree, he⟩ := Option.ite_none_right_eq_some.mp he
  obtain ⟨-, hnode₁⟩ := Prod.mk.inj (Option.some.inj he)
  refine wp_act sort h₁ (fun io (lsn : Option Nat) node₂ w₂ he h₂ => ?_)
  obtain ⟨hlsn, rfl⟩ := Prod.mk.inj (Option.some.inj he)
  by_cases h0 : io = 0
  · -- no room
    have hlog : node₁.tablet.logOp io (.put row col v1) = (none, node₁.tablet) := if_pos h0
    rw [hlog] at hlsn h₂
    obtain rfl : none = lsn := hlsn
    refine wp_act sort h₂ (fun _ _ node₃ w₃ he h₃ => ⟨io, ?_, ?_⟩)
    · rw [Replica.put_eq, if_pos h0]
    · obtain ⟨-, rfl⟩ := Prod.mk.inj (Option.some.inj he)
      rw [h₃, ← hnode₁, Replica.put_eq, if_pos h0]
      exact congrArg node.withTablet (Replica.lock_unlock hfree)
  · have hlog : node₁.tablet.logOp io (.put row col v1)
        = (some (node₁.tablet.lsn + 1), node₁.tablet.record (.put row col v1)) := if_neg h0
    rw [hlog] at hlsn h₂
    obtain rfl : some (node₁.tablet.lsn + 1) = lsn := hlsn
    refine wp_act sort h₂ (fun _ _ node₃ w₃ he h₃ => ?_)
    obtain ⟨-, he⟩ := Option.ite_none_left_eq_some.mp he
    obtain ⟨-, rfl⟩ := Prod.mk.inj (Option.some.inj he)
    refine wp_act sort h₃ (fun _ _ node₄ w₄ he h₄ => ⟨io, ?_, ?_⟩)
    · rw [← hnode₁, Replica.put_eq, if_neg h0]
      rfl
    · obtain ⟨-, rfl⟩ := Prod.mk.inj (Option.some.inj he)
      rw [h₄, ← hnode₁, Replica.put_eq, if_neg h0]
      exact congrArg node.withTablet (Replica.lock_record_apply hfree _)

/-- Writing the old value back. -/
theorem wp_restore (hself : n ∉ node.replicas) (h : w.node n = node) :
    Wp (cluster sort) i net (fun _ => True) depth (.node n) (Manager.restore n row col v1)
      (fun _ w' => ∃ io, (w'.node n).tablet = (node.tablet.put io row col v1).2) w := by
  refine Wp.bind ((wp_put sort h).mono (fun lsn w₁ hq => ?_))
  obtain ⟨io, -, h₁⟩ := hq
  have hdone : (w₁.node n).tablet = (node.tablet.put io row col v1).2 := by
    rw [h₁]
    rfl
  cases lsn with
  | none => exact ⟨io, hdone⟩
  | some lsn =>
      have hself : n ∉ (w₁.node n).replicas := by
        rw [h₁]
        exact hself
      refine Wp.bind ((wp_forwardToAll sort lsn _ hself rfl).mono (fun _ w₂ h₂ => ⟨io, ?_⟩))
      rw [h₂]
      exact hdone

/-- **The program of a primary is `replicatedCput`.** -/
theorem wp_replicatedCput (hprimary : (w.node n).isPrimary = true) (hself : n ∉ (w.node n).replicas) :
    Wp (cluster sort) i net (fun _ => True) depth (.node n) (Manager.replicatedCput n row col v1 v2)
      (fun status w' => ∃ c, (status, (w'.node n).tablet) =
        replicatedCput row col v1 v2 c (w.node n).tablet) w := by
  generalize hnode : w.node n = node at hprimary hself
  refine wp_look sort hnode (v := true) (fun _ => by rw [← hprimary]; rfl) (fun w₁ h₁ => ?_)
  refine wp_act sort h₁ (fun io r node' w₂ he h₂ => ?_)
  obtain ⟨-, he⟩ := Option.ite_none_right_eq_some.mp he
  obtain ⟨-, rfl⟩ := Prod.mk.inj (Option.some.inj he)
  refine wp_look sort h₂ (fun _ => rfl) (fun w₃ h₃ => ?_)
  have ht : (w₃.node n).tablet = node.tablet := by rw [h₃]
  show Wp _ _ _ _ _ _ (if node.tablet.get row col ≠ some v1 then _ else _) _ _
  split
  · rename_i hne
    refine (wp_finish sort ht).mono (fun status w₄ hend => ⟨⟨0, false, 0⟩, ?_⟩)
    rw [hend.1, hend.2, replicatedCput, if_pos hne]
  · rename_i hold
    refine wp_act sort h₃ (fun room r node₂ w₄ he h₄ => ?_)
    obtain ⟨-, he⟩ := Option.ite_none_right_eq_some.mp he
    obtain ⟨rfl, rfl⟩ := Prod.mk.inj (Option.some.inj he)
    have ht₄ : (w₄.node n).tablet = (node.tablet.cput room row col v1 v2).2 := by rw [h₄]; rfl
    dsimp only
    cases hq : node.tablet.cput room row col v1 v2 with
    | mk lsn t₂ =>
        rw [hq] at ht₄
        cases lsn with
        | none =>
            refine (wp_finish sort ht₄).mono (fun status w₅ hend => ⟨⟨room, false, 0⟩, ?_⟩)
            rw [hend.1, hend.2, replicatedCput, if_neg hold, hq]
        | some lsn =>
            have hself₄ : n ∉ (w₄.node n).replicas := by rw [h₄]; exact hself
            refine Wp.bind ((wp_forwardToAll sort lsn _ hself₄ rfl).mono (fun ok w₅ h₅ => ?_))
            split
            · refine (wp_finish sort (h₅ ▸ ht₄)).mono (fun status w₆ hend => ⟨⟨room, true, 0⟩, ?_⟩)
              rw [hend.1, hend.2, replicatedCput, if_neg hold, hq]
              rfl
            · refine Wp.bind ((wp_restore sort hself₄ h₅).mono (fun _ w₆ hback => ?_))
              obtain ⟨back, h₆⟩ := hback
              refine (wp_finish sort h₆).mono (fun status w₇ hend => ⟨⟨room, false, back⟩, ?_⟩)
              rw [hend.1, hend.2, replicatedCput, if_neg hold, hq, ht₄]
              rfl

/-- A run of the program at a primary that is not its own replica. -/
theorem replicatedCput_of_runs {status : KVPutStatus} {w' : World}
    (hprimary : (w.node n).isPrimary = true) (hself : n ∉ (w.node n).replicas)
    (h : runs (cluster sort) i net depth (.node n) (Manager.replicatedCput n row col v1 v2) w
      (some status) w') :
    ∃ c, (status, (w'.node n).tablet) = replicatedCput row col v1 v2 c (w.node n).tablet :=
  ((wp_replicatedCput sort hprimary hself).sound h).1 status rfl

/-- Any other node refuses, and nothing changes. -/
theorem error_of_runs {status : KVPutStatus} {w' : World} (hprimary : (w.node n).isPrimary = false)
    (h : runs (cluster sort) i net depth (.node n) (Manager.replicatedCput n row col v1 v2) w
      (some status) w') : status = .error ∧ w' = w := by
  have hwp : Wp (cluster sort) i net (fun _ => True) depth (.node n)
      (Manager.replicatedCput n row col v1 v2) (fun st w₁ => st = .error ∧ w₁ = w) w := by
    refine Wp.perform trivial (fun io r w₁ he => ?_)
    have he : World.exec i (.node n) io (.node .isPrimary) w = some (r, w₁) := he
    obtain ⟨node', hn, rfl⟩ := World.exec_node he
    obtain ⟨rfl, rfl⟩ := Prod.mk.inj (Option.some.inj hn)
    rw [hprimary]
    exact ⟨rfl, World.setNode_eq_self w n⟩
  exact (hwp.sound h).1 status rfl

end Program

end NCloud.Client
