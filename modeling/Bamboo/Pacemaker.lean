import Bamboo.Crypto

/-!
# The pacemaker

`pacemaker/pacemaker.go` and `pacemaker/timeoutController.go`: the current view of a replica, the
events for the views it enters, and the table of timeouts.

The views of the model are unbounded, and so is its channel of view events.  In Go a view is a 64-bit
integer, and whoever writes to the channel waits while it holds a hundred events.

* `advanceView`: `AdvanceView` on exact views and an unbounded channel;
* `advanceView64`, `advanceViewBounded`: the same on machine integers, and with the channel's hundred places;
* `InRange`, `HasRoom`, `advanceViewBounded_eq`: the bounds within which all of them are one function.
-/

namespace Bamboo

/-- `TimeoutController`. -/
structure TimeoutController where
  n : ℕ
  timeouts : GoMap ℤ (GoMap NodeID TMO)

namespace TimeoutController

/-- `NewTimeoutController`. -/
def new (n : ℕ) : TimeoutController := ⟨n, ∅⟩

variable (tcl : TimeoutController)

/-- `tcl.timeouts[view]`, the empty map when it is absent. -/
def timeoutsFor (view : ℤ) : GoMap NodeID TMO := (tcl.timeouts.lookup view).getD ∅

/-- `superMajority`. -/
def superMajority (view : ℤ) : Bool :=
  decide (tcl.n * 2 / 3 < (tcl.timeoutsFor view).entries.length)

/-- `AddTmo`. -/
def addTmo (tmo : TMO) : Option TC × TimeoutController :=
  if tcl.superMajority tmo.view then (none, tcl)
  else
    let tcl := { tcl with
      timeouts := tcl.timeouts.insert tmo.view ((tcl.timeoutsFor tmo.view).insert tmo.nodeID tmo) }
    if tcl.superMajority tmo.view then (some ⟨tmo.view⟩, tcl) else (none, tcl)

end TimeoutController

/-- `Pacemaker`. -/
structure Pacemaker where
  curView : ℤ
  newViewChan : List ℤ
  timeoutController : TimeoutController

namespace Pacemaker

/-- `NewPacemaker`. -/
def new (n : ℕ) : Pacemaker := ⟨0, [], .new n⟩

variable (p : Pacemaker)

/-- `Pacemaker.ProcessRemoteTmo`. -/
def processRemoteTmo (tmo : TMO) : Option TC × Pacemaker :=
  if tmo.view < p.curView then (none, p)
  else
    let (tc, tcl) := p.timeoutController.addTmo tmo
    (tc, { p with timeoutController := tcl })

/-- `AdvanceView`. -/
def advanceView (view : ℤ) : Pacemaker :=
  if view < p.curView then p
  else { p with curView := view + 1, newViewChan := p.newViewChan ++ [view + 1] }

theorem advanceView_of_lt {p : Pacemaker} {view : ℤ} (h : view < p.curView) :
    p.advanceView view = p := if_pos h

theorem advanceView_of_le {p : Pacemaker} {view : ℤ} (h : p.curView ≤ view) :
    p.advanceView view =
      { p with curView := view + 1, newViewChan := p.newViewChan ++ [view + 1] } :=
  if_neg (by omega)

theorem curView_le_advanceView (p : Pacemaker) (view : ℤ) :
    p.curView ≤ (p.advanceView view).curView := by
  unfold advanceView
  split_ifs with h
  · exact Int.le_refl _
  · dsimp only; omega

/-! ### Machine integers and the channel's places -/

/-- `AdvanceView` on machine integers. -/
def advanceView64 (p : Pacemaker) (view : ℤ) : Pacemaker :=
  if view < p.curView then p
  else { p with curView := int64 (view + 1), newViewChan := p.newViewChan ++ [int64 (view + 1)] }

/-- The largest `int`. -/
def maxInt : ℤ := 2 ^ 63 - 1

/-- `make(chan types.View, 100)`. -/
def newViewCap : ℕ := 100

/-- `AdvanceView` as the code runs it while nobody reads the channel: it does not return from a write to a full
one. -/
def advanceViewBounded (p : Pacemaker) (view : ℤ) : Option Pacemaker :=
  if view < p.curView then some p
  else if p.newViewChan.length < newViewCap then some (p.advanceView64 view)
  else none

/-- The views around the current one are integers of the machine: the next one, which `ProcessBlock` compares
with, and the one after it, whose leader collects the votes. -/
def InRange (p : Pacemaker) : Prop := p.curView + 2 ≤ maxInt

/-- The view events that wait fit into the channel. -/
def HasRoom (p : Pacemaker) : Prop := p.newViewChan.length ≤ newViewCap

instance (p : Pacemaker) : Decidable p.InRange := inferInstanceAs (Decidable (_ ≤ _))

instance (p : Pacemaker) : Decidable p.HasRoom := inferInstanceAs (Decidable (_ ≤ _))

/-- **Below the largest `int` the exact model of the views is the code's.** -/
theorem advanceView64_eq {p : Pacemaker} {view : ℤ} (hv : IsInt view) (hmax : view ≠ maxInt) :
    p.advanceView64 view = p.advanceView view := by
  have hsucc : IsInt (view + 1) := by
    unfold IsInt maxInt at *
    omega
  unfold advanceView64 advanceView
  rw [int64_of_isInt hsucc]

/-- **Where the exact function leaves the views in range and the channel with room, it is the code's.** -/
theorem advanceViewBounded_eq {p : Pacemaker} {view : ℤ} (hv : IsInt view) (hr : (p.advanceView view).InRange)
    (hc : (p.advanceView view).HasRoom) : p.advanceViewBounded view = some (p.advanceView view) := by
  unfold advanceViewBounded
  split_ifs with hlt hroom
  · rw [advanceView_of_lt hlt]
  · rw [advanceView_of_le (not_lt.1 hlt)] at hr
    have hle : view + 1 + 2 ≤ maxInt := hr
    exact congrArg some (advanceView64_eq hv (by omega))
  · rw [advanceView_of_le (not_lt.1 hlt), HasRoom, List.length_append] at hc
    exact absurd hc (by simpa using hroom)

/-- A timeout message touches the table only, and a certificate is for the message's view. -/
theorem processRemoteTmo_cases (p : Pacemaker) (tmo : TMO) :
    ∃ tcl, (p.processRemoteTmo tmo).2 = { p with timeoutController := tcl } ∧
      ∀ tc, (p.processRemoteTmo tmo).1 = some tc → tc.view = tmo.view ∧ p.curView ≤ tmo.view := by
  unfold processRemoteTmo
  split_ifs with h
  · exact ⟨p.timeoutController, rfl, fun tc htc => by simp at htc⟩
  · refine ⟨_, rfl, fun tc htc => ⟨?_, by omega⟩⟩
    unfold TimeoutController.addTmo at htc
    dsimp only at htc
    split_ifs at htc
    cases htc
    rfl

end Pacemaker

end Bamboo
