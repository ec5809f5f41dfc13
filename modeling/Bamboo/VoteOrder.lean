import Bamboo.FourNodes
import Bamboo.HotStuff.Handlers
import Bamboo.Tchs.Handlers

/-!
# The order of a replica's votes

`lastVotedView` is meant to keep the votes of a replica in increasing views, but nothing ever writes to
it.  What is left is the window of views in which blocks are inserted, from the current view to the next
one: the votes go forward if no block is inserted in a view the replica has voted in, nor in the view
before such a one.

* `votesSent`: the views of the votes that went out;
* `VoteLog.Step`, `Voting.step`: what a step of any of the protocols does to the votes;
* `votes_move_forward`: the runs of HotStuff and of its two-chain variants, on arbitrary inputs;
* `voted_twice`: one block that arrives twice.
-/

namespace Bamboo

/-- The view of a vote that is sent. -/
def sentVoteView (e : Envelope) : Option ℤ :=
  match e.body with
  | .vote v => some v.view
  | _ => none

/-- The views of the votes that were sent to other replicas, in the order of time. -/
def votesSent (sent : List Envelope) : List ℤ := sent.filterMap sentVoteView

/-- A vote is noted and, unless it stays with the replica, sent. -/
theorem votesSent_vote {cf : Config} {i : NodeID} {b : Block} {v : Vote} {sent : List Envelope}
    {trace : List Entry} (hv : makeVote cf b.view i b.id = .ok v) (dest : Option NodeID) (p : Prop)
    [Decidable p] (h : (votesSent sent).Sublist (voteViews trace)) :
    (votesSent (if p then sent else sent ++ [⟨dest, .vote v⟩])).Sublist
      (voteViews (trace ++ [.voted b])) := by
  have hviews : voteViews (trace ++ [.voted b]) = voteViews trace ++ [b.view] := by
    simp [voteViews, voteView]
  rw [hviews]
  split_ifs
  · exact h.trans (List.sublist_append_left _ _)
  · have hsent : votesSent (sent ++ [⟨dest, .vote v⟩]) = votesSent sent ++ [b.view] := by
      simp [votesSent, sentVoteView, (makeVote_eq_ok hv).1]
    rw [hsent]
    exact h.append (List.Sublist.refl _)

theorem votesSent_send {sent : List Envelope} {e : Envelope} (he : sentVoteView e = none) :
    votesSent (sent ++ [e]) = votesSent sent := by
  simp [votesSent, he]

theorem voteViews_append {trace : List Entry} {e : Entry} (he : voteView e = none) :
    voteViews (trace ++ [e]) = voteViews trace := by
  simp [voteViews, he]

/-! ### One step of a replica -/

/-- What the order of the votes depends on. -/
structure VoteLog where
  trace : List Entry
  sent : List Envelope
  curView : ℤ

/-- What one step can do to it. -/
inductive VoteLog.Step (nd : Node) (l : VoteLog) : VoteLog → Prop
  /-- nothing is noted and no vote is sent -/
  | silent {sent : List Envelope} {cur : ℤ} (hs : votesSent sent = votesSent l.sent) (hc : l.curView ≤ cur) :
      Step nd l ⟨l.trace, sent, cur⟩
  /-- something else than an insertion or a vote is noted -/
  | note {e : Entry} (hv : voteView e = none) (hp : ∀ p, pendingNext p e = p) :
      Step nd l { l with trace := l.trace ++ [e] }
  /-- a block of the current view or the next one is inserted -/
  | accept {b : Block} {lock : ℤ} {parent : Option Block} (hlow : l.curView ≤ b.view)
      (hup : b.view ≤ l.curView + 1) : Step nd l { l with trace := l.trace ++ [.accepted b lock parent] }
  /-- a vote for the block that waits for it, which may stay with the replica -/
  | vote {b : Block} {v : Vote} (dest : Option NodeID) (p : Prop) [Decidable p] (hp : pending l.trace = some b)
      (hv : makeVote nd.toConfig b.view nd.id b.id = .ok v) :
      Step nd l { l with
        trace := l.trace ++ [.voted b]
        sent := if p then l.sent else l.sent ++ [⟨dest, .vote v⟩] }

/-- The votes of a replica: those noted go forward, and those sent are among them. -/
structure Voting (l : VoteLog) : Prop where
  forward : FreshInsertions l.trace → Forward l.trace l.curView
  sent : (votesSent l.sent).Sublist (voteViews l.trace)

theorem voting_nil (cur : ℤ) : Voting ⟨[], [], cur⟩ := ⟨fun _ => forward_nil cur, by simp [votesSent]⟩

/-- **Step lemma**: every step keeps the votes in order. -/
theorem Voting.step {nd : Node} {l t : VoteLog} (h : Voting l) (hstep : l.Step nd t) : Voting t := by
  cases hstep with
  | silent hs hc => exact ⟨fun hf => (h.forward hf).mono hc, hs ▸ h.sent⟩
  | note hv hp =>
    refine ⟨fun hf => (h.forward hf.of_append).neutral hv hp, ?_⟩
    show (votesSent l.sent).Sublist _
    rw [voteViews_append hv]
    exact h.sent
  | accept hlow hup =>
    refine ⟨fun hf => (h.forward hf.of_append).accepted hlow hup hf, ?_⟩
    show (votesSent l.sent).Sublist _
    rw [voteViews_append rfl]
    exact h.sent
  | vote dest p hp hv => exact ⟨fun hf => (h.forward hf.of_append).voted hp, votesSent_vote hv dest p h.sent⟩

/-- In order as they were noted, the votes are in order as they were sent. -/
theorem Voting.increasing {l : VoteLog} (h : Voting l) (hf : FreshInsertions l.trace) :
    (voteViews l.trace).Pairwise (· < ·) ∧ (votesSent l.sent).Pairwise (· < ·) :=
  ⟨(h.forward hf).increasing, (h.forward hf).increasing.sublist h.sent⟩

/-- What the votes of a replica depend on. -/
def HotStuff.voteLog (s : HotStuff) : VoteLog := ⟨s.trace, s.sent, s.pm.curView⟩

def Tchs.voteLog (s : Tchs) : VoteLog := ⟨s.trace, s.sent, s.pm.curView⟩

theorem HotStuff.Act.voteStep {nd : Node} {In : Msg → Prop} {s t : HotStuff} (ha : Act nd In s t) :
    s.voteLog.Step nd t.voteLog := by
  have hcur := ha.curView_le
  cases ha with
  | accept hb hf => exact .accept hb.lower hb.upper
  | vote hp hr hv => exact .vote _ _ hp hv
  | offer =>
    unfold voteLog
    rw [updateHighQC_trace, updateHighQC_sent, updateHighQC_pm]
    exact .note rfl fun _ => rfl
  | build => exact .note rfl fun _ => rfl
  | commit => exact .note rfl fun _ => rfl
  | propose => exact .silent (votesSent_send rfl) hcur
  | sendTmo => exact .silent (votesSent_send rfl) hcur
  | certify hk hv hp ht =>
    obtain ⟨v, rfl, -⟩ := updatePreferredView_cases ht
    unfold voteLog at *
    rw [updateHighQC_trace, updateHighQC_sent]
    exact .silent rfl hcur
  | _ => exact .silent rfl hcur

theorem Tchs.Act.voteStep {nd : Node} {In : Msg → Prop} {s t : Tchs} (ha : Act nd In s t) :
    s.voteLog.Step nd t.voteLog := by
  have hcur := ha.curView_le
  cases ha with
  | accept hb hf => exact .accept hb.lower hb.upper
  | vote hp hg hr hv => exact .vote _ _ hp hv
  | build => exact .note rfl fun _ => rfl
  | commit => exact .note rfl fun _ => rfl
  | propose => exact .silent (votesSent_send rfl) hcur
  | sendTmo => exact .silent (votesSent_send rfl) hcur
  | @offer p =>
    obtain ⟨x, heq, -⟩ := updateHighQC_cases s p
    rw [heq] at hcur ⊢
    exact .silent rfl hcur
  | @certify p q u hp hv hpass ht =>
    obtain ⟨v, x, heq, -⟩ := certify_cases (p := p) ht
    rw [heq] at hcur ⊢
    exact .silent rfl hcur
  | _ => exact .silent rfl hcur

/-- **Votes move forward.**  On any inputs that leave the views within the range of the machine's integers, an
honest replica of HotStuff or of its two-chain variants votes in increasing views, if whenever it inserted a
block it had not voted in the block's view nor in the next one. -/
theorem votes_move_forward (nd : Node) (hb : nd.isByz = false) (inputs : List Safety.Input) :
    ((HotStuff.runOn nd inputs).pm.InRange → FreshInsertions (HotStuff.runOn nd inputs).trace →
      (voteViews (HotStuff.runOn nd inputs).trace).Pairwise (· < ·) ∧
        (votesSent (HotStuff.runOn nd inputs).sent).Pairwise (· < ·)) ∧
    ((Tchs.runOn nd inputs).pm.InRange → FreshInsertions (Tchs.runOn nd inputs).trace →
      (voteViews (Tchs.runOn nd inputs).trace).Pairwise (· < ·) ∧
        (votesSent (Tchs.runOn nd inputs).sent).Pairwise (· < ·)) := by
  have h : Voting (HotStuff.runOn nd inputs).voteLog :=
    HotStuff.runOn_invariant hb inputs (P := fun s => Voting s.voteLog) (voting_nil 0) fun _ _ _ ih ha =>
      ih.step ha.voteStep
  have h' : Voting (Tchs.runOn nd inputs).voteLog :=
    Tchs.runOn_invariant hb inputs (P := fun s => Voting s.voteLog) (voting_nil 0) fun _ _ ih ha =>
      ih.step ha.voteStep
  exact ⟨fun _ hf => h.increasing hf, fun _ hf => h'.increasing hf⟩

/-- Node 2 gets the blocks of views 1 and 2. -/
def twoViews : List Safety.Input :=
  [.msg (.block (FourNodes.block 1 .initial)),
    .msg (.block (FourNodes.block 2 (FourNodes.certificate 1)))]

/-- It votes for both, in either protocol. -/
theorem votes_move_forward_twoViews :
    voteViews (HotStuff.runOn FourNodes.second twoViews).trace = [1, 2] ∧
      voteViews (Tchs.runOn FourNodes.second twoViews).trace = [1, 2] ∧
      (votesSent (HotStuff.runOn FourNodes.second twoViews).sent).Pairwise (· < ·) ∧
      (votesSent (Tchs.runOn FourNodes.second twoViews).sent).Pairwise (· < ·) := by
  obtain ⟨h, h'⟩ := votes_move_forward FourNodes.second rfl twoViews
  refine ⟨by decide_cbv, by decide_cbv, (h ?_ ?_).2, (h' ?_ ?_).2⟩
  · decide_cbv
  · exact freshInsertions_of_test (by decide_cbv)
  · decide_cbv
  · exact freshInsertions_of_test (by decide_cbv)

/-- The block of view 1 arrives twice. -/
def sameBlockTwice : List Safety.Input :=
  [.msg (.block (FourNodes.block 1 .initial)), .msg (.block (FourNodes.block 1 .initial))]

/-- **A block that arrives twice is voted for twice**, in either protocol. -/
theorem voted_twice :
    votesSent (HotStuff.runOn FourNodes.second sameBlockTwice).sent = [1, 1] ∧
      votesSent (Tchs.runOn FourNodes.second sameBlockTwice).sent = [1, 1] := by
  constructor <;> decide_cbv

end Bamboo
