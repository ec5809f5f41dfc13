import Bamboo.Ballots
import Bamboo.Pacemaker

/-!
# Sequences of calls to the pacemaker

`AdvanceView` adds one to its argument in 64-bit arithmetic, and its arguments are the views of received
certificates and timeouts.

* `goes_forward_iff`: views go forward exactly if no call is for the largest one;
* `one_certificate_per_view`: when `ProcessRemoteTmo` returns a certificate, between calls of `AdvanceView`.
-/

namespace Bamboo

namespace Pacemaker

variable {p : Pacemaker} {view : ℤ} {n : ℕ}

/-! ### Views go forward -/

/-- A sequence of calls of `AdvanceView` on a new pacemaker. -/
def advances (n : ℕ) (views : List ℤ) : Pacemaker := views.foldl advanceView64 (new n)

theorem advances_append (n : ℕ) (views : List ℤ) (view : ℤ) :
    advances n (views ++ [view]) = (advances n views).advanceView64 view := by
  simp [advances]

/-- No call takes the current view back, the values sent increase, and the last one is the current view. -/
structure GoesForward (n : ℕ) (views : List ℤ) : Prop where
  current : ∀ before view after, views = before ++ view :: after →
    (advances n before).curView ≤ (advances n (before ++ [view])).curView
  increasing : (advances n views).newViewChan.Pairwise (· < ·)
  last : ∀ view, (advances n views).newViewChan.getLast? = some view → view = (advances n views).curView

/-- What the calls keep as long as none is for the largest view. -/
structure Forward (p : Pacemaker) : Prop where
  nonneg : 0 ≤ p.curView
  sent : ∀ view ∈ p.newViewChan, view ≤ p.curView
  increasing : p.newViewChan.Pairwise (· < ·)
  last : ∀ view, p.newViewChan.getLast? = some view → view = p.curView

theorem Forward.advanceView (h : Forward p) (view : ℤ) : Forward (p.advanceView view) := by
  rcases lt_or_ge view p.curView with hlt | hle
  · rw [advanceView_of_lt hlt]
    exact h
  · rw [advanceView_of_le hle]
    have hnn := h.nonneg
    have hlast : ∀ v ∈ p.newViewChan, v < view + 1 := fun v hv => by
      have := h.sent v hv
      omega
    constructor
    · show 0 ≤ view + 1
      omega
    · intro v hv
      rcases List.mem_append.1 hv with hv | hv
      · exact (hlast v hv).le
      · exact (List.mem_singleton.1 hv).le
    · refine List.pairwise_append.2 ⟨h.increasing, List.pairwise_singleton _ _, fun v hv w hw => ?_⟩
      rw [List.mem_singleton.1 hw]
      exact hlast v hv
    · intro v hv
      rw [List.getLast?_concat] at hv
      exact (Option.some.inj hv).symm

theorem forward_advances {views : List ℤ} (hint : ∀ v ∈ views, IsInt v) (hmax : maxInt ∉ views) :
    Forward (advances n views) := by
  induction views using List.reverseRecOn with
  | nil => exact ⟨le_rfl, by simp [advances, new], by simp [advances, new], by simp [advances, new]⟩
  | append_singleton views view ih =>
    rw [List.mem_append, not_or] at hmax
    have hih := ih (fun v hv => hint v (List.mem_append_left _ hv)) hmax.1
    rw [advances_append, advanceView64_eq (hint view (by simp)) fun h => hmax.2 (by simp [h])]
    exact hih.advanceView view

theorem isInt_advances (n : ℕ) (views : List ℤ) : IsInt (advances n views).curView := by
  induction views using List.reverseRecOn with
  | nil =>
    show IsInt 0
    unfold IsInt
    omega
  | append_singleton views view ih =>
    rw [advances_append, advanceView64]
    split_ifs
    · exact ih
    · exact isInt_int64 _

/-- **Views go forward**, for all sequences of calls with `int` arguments, exactly if the largest `int` is not
among these. -/
theorem goes_forward_iff (n : ℕ) (views : List ℤ) (hint : ∀ v ∈ views, IsInt v) :
    GoesForward n views ↔ maxInt ∉ views := by
  constructor
  · intro h hmem
    obtain ⟨before, after, rfl, hbefore⟩ := List.eq_append_cons_of_mem hmem
    have hforward : Forward (advances n before) :=
      forward_advances (fun v hv => hint v (List.mem_append_left _ hv)) hbefore
    have hle := h.current before maxInt after rfl
    have hnn := hforward.nonneg
    rw [advances_append, advanceView64] at hle
    split_ifs at hle with hlt
    · have := (isInt_advances n before).2
      unfold maxInt at hlt
      omega
    · -- the successor of the largest view is the smallest one
      rw [show int64 (maxInt + 1) = -2 ^ 63 by decide] at hle
      dsimp only at hle
      omega
  · intro hmax
    have hforward := forward_advances (n := n) hint hmax
    refine ⟨fun before view after hviews => ?_, hforward.increasing, hforward.last⟩
    subst hviews
    rw [advances_append, advanceView64_eq (hint view (by simp)) fun h => hmax (by simp [h])]
    exact curView_le_advanceView _ view

/-- Two certificates of one view and a skipped view. -/
theorem goes_forward_iff_threeCalls : GoesForward 4 [1, 1, 5] :=
  (goes_forward_iff 4 [1, 1, 5] (by unfold IsInt; decide)).2 (by decide)

/-- A certificate for the largest view takes a new pacemaker to the smallest one. -/
theorem largest_view_goes_back : IsInt maxInt ∧ ¬ GoesForward 4 [maxInt] := by
  refine ⟨by unfold IsInt maxInt; decide, fun h => ?_⟩
  have hle := h.current [] maxInt [] rfl
  exact absurd hle (by decide)

/-! ### Timeout certificates -/

/-- A call to the pacemaker. -/
inductive Call
  | tmo (t : TMO)
  | advance (view : ℤ)

/-- The pacemaker after a call. -/
def call (p : Pacemaker) : Call → Pacemaker
  | .tmo t => (p.processRemoteTmo t).2
  | .advance view => p.advanceView64 view

/-- The pacemaker after a sequence of calls to a new one. -/
def calls (n : ℕ) (cs : List Call) : Pacemaker := cs.foldl call (new n)

/-- The timeout of a call, if its view is not below the current one. -/
def passed (p : Pacemaker) : Call → List TMO
  | .tmo t => if p.curView ≤ t.view then [t] else []
  | .advance _ => []

/-- The timeouts that were not below the current view when they came. -/
def accepted (p : Pacemaker) : List Call → List TMO
  | [] => []
  | c :: cs => p.passed c ++ accepted (p.call c) cs

/-- The number of nodes that have timed out of a view while it was not below the current one. -/
def timedOut (n : ℕ) (cs : List Call) (view : ℤ) : ℕ :=
  (TimeoutController.senders view (accepted (new n) cs)).toFinset.card

theorem accepted_append (p : Pacemaker) (cs ds : List Call) :
    accepted p (cs ++ ds) = accepted p cs ++ accepted (cs.foldl call p) ds := by
  induction cs generalizing p with
  | nil => rfl
  | cons c cs ih => simp [accepted, ih]

theorem calls_append (n : ℕ) (cs : List Call) (c : Call) : calls n (cs ++ [c]) = (calls n cs).call c := by
  simp [calls]

theorem accepted_concat (n : ℕ) (cs : List Call) (c : Call) :
    accepted (new n) (cs ++ [c]) = accepted (new n) cs ++ (calls n cs).passed c := by
  simp [accepted_append, accepted, calls]

/-- The table holds what was passed on to it. -/
theorem timeoutController_calls (n : ℕ) (cs : List Call) :
    (calls n cs).timeoutController = (TimeoutController.new n).feed (accepted (new n) cs) := by
  induction cs using List.reverseRecOn with
  | nil => rfl
  | append_singleton cs c ih =>
    rw [calls_append, accepted_concat]
    cases c with
    | tmo t =>
      show ((calls n cs).processRemoteTmo t).2.timeoutController =
        (TimeoutController.new n).feed (_ ++ if (calls n cs).curView ≤ t.view then [t] else [])
      unfold processRemoteTmo
      by_cases hlt : t.view < (calls n cs).curView
      · rw [if_pos hlt, if_neg (by omega), List.append_nil]
        exact ih
      · rw [if_neg hlt, if_pos (by omega), TimeoutController.feed_append, ← ih]
    | advance view =>
      show ((calls n cs).advanceView64 view).timeoutController = (TimeoutController.new n).feed (_ ++ [])
      unfold advanceView64
      rw [List.append_nil]
      split_ifs
      · exact ih
      · exact ih

theorem timedOut_mono (n : ℕ) (cs ds : List Call) (view : ℤ) : timedOut n cs view ≤ timedOut n (cs ++ ds) view := by
  refine Finset.card_le_card fun i hi => ?_
  rw [List.mem_toFinset, accepted_append, TimeoutController.senders, List.filter_append, List.map_append]
  exact List.mem_append_left _ (List.mem_toFinset.1 hi)

/-- One more timeout of the view. -/
theorem timedOut_tmo {cs : List Call} {t : TMO} (h : (calls n cs).curView ≤ t.view) :
    timedOut n (cs ++ [.tmo t]) t.view =
      (insert t.nodeID (TimeoutController.senders t.view (accepted (new n) cs)).toFinset).card := by
  have hacc : accepted (new n) (cs ++ [.tmo t]) = accepted (new n) cs ++ [t] := by
    rw [accepted_concat, passed, if_pos h]
  rw [timedOut, hacc, TimeoutController.senders, List.filter_append, List.map_append, List.toFinset_append]
  congr 1
  simp [TimeoutController.senders]

/-- A timeout returns a certificate if it brings the number of nodes above two thirds. -/
theorem processRemoteTmo_eq (n : ℕ) (before : List Call) (t : TMO) :
    ((calls n before).processRemoteTmo t).1 =
      if (calls n before).curView ≤ t.view ∧ timedOut n before t.view ≤ n * 2 / 3 ∧
        n * 2 / 3 < timedOut n (before ++ [.tmo t]) t.view then some ⟨t.view⟩ else none := by
  by_cases hlt : t.view < (calls n before).curView
  · rw [if_neg fun h => by omega, processRemoteTmo, if_pos hlt]
  · have hle : (calls n before).curView ≤ t.view := by omega
    have hone : ((calls n before).processRemoteTmo t).1 =
        (((TimeoutController.new n).feed (accepted (new n) before)).addTmo t).1 := by
      rw [processRemoteTmo, if_neg hlt, timeoutController_calls]
    obtain ⟨-, hview, hiff⟩ := TimeoutController.addTmo_cases
      ((TimeoutController.new n).feed (accepted (new n) before)) t
    rw [TimeoutController.tally_feed, show (TimeoutController.new n).tally = Tally.new n from rfl,
      Tally.completes_feed_iff, TimeoutController.senders_ballot] at hiff
    rw [hone, timedOut_tmo hle, timedOut]
    by_cases hmem : t.nodeID ∈ TimeoutController.senders t.view (accepted (new n) before)
    · rw [Finset.insert_eq_of_mem (List.mem_toFinset.2 hmem), if_neg fun h => by omega]
      exact Option.eq_none_iff_forall_ne_some.2 fun tc htc => (hiff.1 ⟨tc, htc⟩).2 hmem
    · rw [Finset.card_insert_of_notMem fun h => hmem (List.mem_toFinset.1 h)]
      split_ifs with hcond
      · obtain ⟨tc, htc⟩ := hiff.2 ⟨by omega, hmem⟩
        rw [htc, ← hview tc htc]
      · refine Option.eq_none_iff_forall_ne_some.2 fun tc htc => hcond ⟨hle, ?_⟩
        have := (hiff.1 ⟨tc, htc⟩).1
        omega

/-- **One timeout certificate for each view, at the right moment.**  Whatever calls have come before: a timeout
returns a certificate, which is one for its view, exactly if the view is not below the current one and the number
of nodes that have timed out of it exceeds two thirds with this timeout and did not before; and no two timeouts
return certificates for one view. -/
theorem one_certificate_per_view (n : ℕ) :
    (∀ before t, ((calls n before).processRemoteTmo t).1 =
      if (calls n before).curView ≤ t.view ∧ timedOut n before t.view ≤ n * 2 / 3 ∧
        n * 2 / 3 < timedOut n (before ++ [.tmo t]) t.view then some ⟨t.view⟩ else none) ∧
    ∀ before t between t' tc tc', ((calls n before).processRemoteTmo t).1 = some tc →
      ((calls n (before ++ .tmo t :: between)).processRemoteTmo t').1 = some tc' → tc.view ≠ tc'.view := by
  refine ⟨processRemoteTmo_eq n, fun before t between t' tc tc' htc htc' hview => ?_⟩
  rw [processRemoteTmo_eq] at htc htc'
  split_ifs at htc with h
  split_ifs at htc' with h'
  cases htc
  cases htc'
  -- the number was above two thirds already
  have hmono := timedOut_mono n (before ++ [.tmo t]) between t.view
  rw [List.append_assoc, List.singleton_append] at hmono
  have hfew := h'.2.1
  rw [← show t.view = t'.view from hview] at hfew
  omega

end Pacemaker

end Bamboo
