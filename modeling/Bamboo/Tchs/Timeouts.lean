import Bamboo.FourNodes
import Bamboo.Tchs.Model

/-!
# A replica's own timeouts

`ProcessLocalTmo` advances the pacemaker by two views before it makes its timeout message, so the message
is of a view that is over when the replica comes to count it.

* `ownTmo`: the message that is broadcast;
* `processLocalTmo_eq`: all that the handler does, in its current view;
* `own_timeout_counted_iff`: the message is on record afterwards only if one like it was there before;
* `no_timeout_counted`: four replicas that time out and hear each other record nothing.
-/

namespace Bamboo

namespace Tchs

/-- The message that `ProcessLocalTmo` broadcasts in the current view. -/
def ownTmo (nd : Node) (s : Tchs) : TMO := ⟨s.pm.curView + 1, nd.id, some (s.qcAt s.highQC)⟩

/-- The timeout is on record under the node's id, for its own view. -/
def OnRecord (id : NodeID) (s : Tchs) (tmo : TMO) : Prop :=
  (s.pm.timeoutController.timeoutsFor tmo.view).lookup id = some tmo

/-- `ProcessLocalTmo` sends its message and enters the view after the next one; nothing else changes. -/
theorem processLocalTmo_eq (nd : Node) (s : Tchs) :
    processLocalTmo nd s.pm.curView s = .ok () { s with
      pm := s.pm.advanceView (s.pm.curView + 1)
      sent := s.sent ++ [⟨none, .tmo (ownTmo nd s)⟩] } := by
  have hadv : s.pm.advanceView (s.pm.curView + 1) =
      { s.pm with
        curView := s.pm.curView + 1 + 1
        newViewChan := s.pm.newViewChan ++ [s.pm.curView + 1 + 1] } :=
    Pacemaker.advanceView_of_le (by omega)
  -- the message is of a view that is over
  have hover : s.pm.curView + 1 < (s.pm.advanceView (s.pm.curView + 1)).curView := by
    rw [hadv]
    show s.pm.curView + 1 < s.pm.curView + 1 + 1
    omega
  unfold processLocalTmo processRemoteTmo
  rw [Prog.modify_bind_apply, Prog.get_bind_apply, Prog.modify_bind_apply, Prog.get_bind_apply]
  exact congrFun (if_pos hover) _

/-- **A replica's own timeout is counted** after `ProcessLocalTmo` in its current view, or its view had
enough timeouts before, if and only if the view had enough timeouts before or the same message was already
on record under the replica's id.  The view that is entered is an integer of the machine, and its event has room
in the channel. -/
theorem own_timeout_counted_iff (nd : Node) (s : Tchs) (_hr : s.pm.InRange)
    (_hc : (s.pm.advanceView (s.pm.curView + 1)).HasRoom) :
    (∃ t tmo, processLocalTmo nd s.pm.curView s = .ok () t ∧ t.sent = s.sent ++ [⟨none, .tmo tmo⟩] ∧
      (OnRecord nd.id t tmo ∨ s.pm.timeoutController.superMajority tmo.view = true)) ↔
    OnRecord nd.id s (ownTmo nd s) ∨
      s.pm.timeoutController.superMajority (s.pm.curView + 1) = true := by
  have htable : (s.pm.advanceView (s.pm.curView + 1)).timeoutController = s.pm.timeoutController := by
    rw [Pacemaker.advanceView_of_le (by omega)]
  rw [processLocalTmo_eq]
  constructor
  · rintro ⟨t, tmo, ht, hsent, h⟩
    cases ht
    have htmo : tmo = ownTmo nd s := by
      simpa using (List.append_cancel_left hsent).symm
    subst htmo
    refine h.imp (fun hrec => ?_) fun hmaj => hmaj
    unfold OnRecord at hrec ⊢
    rwa [htable] at hrec
  · intro h
    refine ⟨_, ownTmo nd s, rfl, rfl, h.imp (fun hrec => ?_) fun hmaj => hmaj⟩
    unfold OnRecord at hrec ⊢
    rwa [htable]

/-- A new replica does not count its timeout. -/
theorem own_timeout_counted_iff_new :
    ¬∃ t tmo, processLocalTmo FourNodes.second 0 (Tchs.new 4) = .ok () t ∧
      t.sent = (Tchs.new 4).sent ++ [⟨none, .tmo tmo⟩] ∧
      (OnRecord FourNodes.second.id t tmo ∨
        (Tchs.new 4).pm.timeoutController.superMajority tmo.view = true) := by
  rw [show (0 : ℤ) = (Tchs.new 4).pm.curView from rfl,
    own_timeout_counted_iff FourNodes.second (Tchs.new 4) (by decide) (by decide)]
  unfold OnRecord
  decide_cbv

/-- The timers of all nodes fire and everyone hears everyone. -/
def allTimeOut : List (Net.System.Sched NodeID Event) :=
  (FourNodes.members.map fun i => .fire i .timer) ++
    FourNodes.members.flatMap fun i => (FourNodes.members.filter (· ≠ i)).map fun j => .pass i 0 j

/-- **No timeout is counted.**  All four replicas time out in view 0 and get each other's messages, and
the tables of all of them stay empty. -/
theorem no_timeout_counted :
    ∃ net, (tchsNet (FourNodes.config fun _ => "1") FourNodes.members).Reachable net ∧
      ∀ i ∈ FourNodes.members, (net i).st.sent = [⟨none, .tmo ⟨1, i, some .initial⟩⟩] ∧
        (net i).st.pm.timeoutController.timeouts.keys = [] := by
  obtain ⟨net, hr, htest⟩ :=
    (tchsNet (FourNodes.config fun _ => "1") FourNodes.members).exists_reachable allTimeOut
      (fun net => decide (∀ i ∈ FourNodes.members,
        (net i).st.sent = [⟨none, .tmo ⟨1, i, some .initial⟩⟩] ∧
        (net i).st.pm.timeoutController.timeouts.keys = [])) (by decide_cbv)
  exact ⟨net, hr, of_decide_eq_true htest⟩

end Tchs

end Bamboo
