import Bamboo.FourNodes
import Bamboo.Goroutines

/-!
# How a replica starts

`Start` waits for a signal on the channel `start`, which `startSignal` sends when a message or a client's
transaction finds `isStarted` not set.  Two things can go wrong.

* `HandleTmo` sends no signal.  If the first message of a replica is a timeout message, `node.handle` waits for an
  event loop that is not there.
* The test of `isStarted` and its setting are two steps, and `node.handle` and `node.txn` are two goroutines.  If
  both find it not set, both send a signal, and `Start` takes only one.

* `Stage`: the beginning of a replica without client transactions;
* `HandleSignals`, `TxnSignals`: the two goroutines between the test and the end of `startSignal`;
* `tmo_first`, `start_race`: **the two ways to get stuck**.
-/

namespace Bamboo

namespace Goroutines

variable {g t : Goroutines} {leads : Bool} {m : Move}

/-! ### A timeout message first -/

/-- Everything but `node.handle` as `NewReplica` leaves it. -/
structure Dormant (g : Goroutines) : Prop where
  curView : g.curView = 0
  lock : g.lock = none
  newViewChan : g.newViewChan = []
  main : g.main = .waiting
  listener : g.listener = .off
  txn : g.txn = .idle

/-- A timeout message that `HandleTmo` passes on in view 0. -/
def Timely (x : Item) : Prop := ∃ tmo, x = .msg (.tmo tmo) ∧ ¬ tmo.view < 0

/-- The beginning of a replica without client transactions. -/
inductive Stage (g : Goroutines) : Prop
  | asleep (h : Dormant g) (hd : g.dispatched = []) (hh : g.handle = .idle)
  | stuck (h : Dormant g) (x : Item) (hx : Timely x) (hd : g.dispatched = [x]) (hh : g.handle = .offering x)
  | past (x : Item) (hx : ¬ Timely x) (rest : List Item) (hd : g.dispatched = x :: rest)

/-- `node.handle` forgets nothing. -/
theorem dispatched_acts (ha : Acts leads g m t) : g.dispatched <+: t.dispatched := by
  cases ha with
  | dispatch _ _ => exact List.prefix_append _ _
  | @skip w _ _ _ _ _ | @enter w _ _ _ _ _ =>
    cases w <;> exact List.prefix_refl _
  | @finish w _ _ =>
    cases w <;> exact List.prefix_refl _
  | _ => exact List.prefix_refl _

theorem Dormant.calls (h : Dormant g) (w : Who) : g.calls w = none := by
  cases w with
  | main =>
    unfold Goroutines.calls
    rw [h.main]
  | listener =>
    unfold Goroutines.calls
    rw [h.listener]
  | txn =>
    unfold Goroutines.calls
    rw [h.txn]

/-- Without a signal and a transaction only `node.handle` does something, or the process ends. -/
theorem Dormant.acts (h : Dormant g) (hm : m ≠ .request) (hs : ∀ x, g.handle ≠ .starting x)
    (ha : Acts leads g m t) : Dormant t := by
  cases ha with
  | wake _ hh => exact absurd hh (hs _)
  | txnLoad ht | txnBoost ht | txnWake _ ht | txnRead ht _ =>
    rw [h.txn] at ht
    cases ht
  | deliver hm' _ | offer hm' _ =>
    rw [h.main] at hm'
    cases hm'
  | request _ => exact absurd rfl hm
  | take hl _ | expire hl =>
    rw [h.listener] at hl
    cases hl
  | skip _ hc _ | enter _ hc _ | finish hc _ =>
    rw [h.calls] at hc
    cases hc
  | write hl _ =>
    rw [h.lock] at hl
    cases hl
  | query _ _ => exact h
  | dispatch _ _ | load _ | boost _ | stop => exact ⟨h.curView, h.lock, h.newViewChan, h.main, h.listener, h.txn⟩

/-- **Step lemma.** -/
theorem Stage.acts (hs : Stage g) (hm : m ≠ .request) (ha : Acts leads g m t) : Stage t := by
  cases hs with
  | asleep h hd hh =>
    have hdorm := h.acts hm (fun x hx => by rw [hh] at hx; cases hx) ha
    cases ha with
    | @dispatch x _ _ =>
      by_cases hx : Timely x
      · obtain ⟨tmo, rfl, hv⟩ := hx
        refine .stuck hdorm _ ⟨tmo, rfl, hv⟩ (by rw [hd]; rfl) ?_
        show handler g.curView (.msg (.tmo tmo)) = _
        rw [h.curView]
        exact if_neg hv
      · exact .past x hx [] (by rw [hd]; rfl)
    | load hh' | boost hh' | wake _ hh' | deliver _ hh' =>
      rw [hh] at hh'
      cases hh'
    | skip _ hc _ | enter _ hc _ | finish hc _ =>
      rw [h.calls] at hc
      cases hc
    | _ => exact .asleep hdorm hd hh
  | stuck h x hx hd hh =>
    have hdorm := h.acts hm (fun y hy => by rw [hh] at hy; cases hy) ha
    cases ha with
    | dispatch hh' _ | load hh' | boost hh' | wake _ hh' =>
      rw [hh] at hh'
      cases hh'
    | deliver hw _ =>
      -- `Start` is not at `<-r.eventChan`
      rw [h.main] at hw
      cases hw
    | skip _ hc _ | enter _ hc _ | finish hc _ =>
      rw [h.calls] at hc
      cases hc
    | _ => exact .stuck hdorm x hx hd hh
  | past x hx rest hd =>
    obtain ⟨more, hmore⟩ := dispatched_acts ha
    exact .past x hx (rest ++ more) (by rw [← hmore, hd, List.cons_append])

/-- `node.handle` is in `startSignal`, after the test of `isStarted`. -/
def HandleSignals (x : Item) (g : Goroutines) : Prop := g.handle = .boosting x ∨ g.handle = .starting x

/-- `node.txn` is there. -/
def TxnSignals (g : Goroutines) : Prop := g.txn = .boosting ∨ g.txn = .starting

/-- `Start` has taken its signal. -/
theorem main_acts (hw : g.main ≠ .waiting) (ha : Acts leads g m t) : t.main ≠ .waiting := by
  cases ha with
  | wake hm _ | txnWake hm _ => exact absurd hm hw
  | deliver _ _ | offer _ _ =>
    intro hn
    cases hn
  | @skip w _ _ _ _ _ | @enter w _ _ _ _ _ =>
    cases w with
    | main =>
      intro hn
      cases hn
    | listener | txn => exact hw
  | @finish w _ _ =>
    cases w with
    | main =>
      intro hn
      cases hn
    | listener | txn => exact hw
  | _ => exact hw

/-- `node.handle` stays in `startSignal` until `Start` takes its signal. -/
theorem HandleSignals.acts {x : Item} (h : HandleSignals x g) (ha : Acts leads g m t) :
    (HandleSignals x t ∧ t.dispatched = g.dispatched) ∨
      (g.main = .waiting ∧ t.main ≠ .waiting ∧ t.txn = g.txn ∧ t.served = g.served) := by
  cases ha with
  | dispatch hh _ | load hh | deliver _ hh =>
    rcases h with h | h
    · rw [hh] at h
      cases h
    · rw [hh] at h
      cases h
  | boost hh =>
    rcases h with h | h
    · rw [hh] at h
      cases h
      exact Or.inl ⟨Or.inr rfl, rfl⟩
    · rw [hh] at h
      cases h
  | wake hm _ => exact Or.inr ⟨hm, (by rintro ⟨⟩), rfl, rfl⟩
  | @skip w _ _ _ _ _ | @enter w _ _ _ _ _ => cases w <;> exact Or.inl ⟨h, rfl⟩
  | @finish w _ _ => cases w <;> exact Or.inl ⟨h, rfl⟩
  | _ => exact Or.inl ⟨h, rfl⟩

/-- `node.txn` stays in `startSignal` until `Start` takes its signal. -/
theorem TxnSignals.acts (h : TxnSignals g) (ha : Acts leads g m t) :
    (TxnSignals t ∧ t.served = g.served) ∨
      (g.main = .waiting ∧ t.main ≠ .waiting ∧ t.handle = g.handle ∧ t.dispatched = g.dispatched) := by
  have hcalls : g.calls .txn = none := by
    unfold calls
    rcases h with h | h
    · rw [h]
    · rw [h]
  cases ha with
  | request ht | txnLoad ht | txnRead ht _ =>
    rcases h with h | h
    · rw [ht] at h
      cases h
    · rw [ht] at h
      cases h
  | txnBoost _ => exact Or.inl ⟨Or.inr rfl, rfl⟩
  | txnWake hm _ => exact Or.inr ⟨hm, (by rintro ⟨⟩), rfl, rfl⟩
  | @skip w _ _ _ hc _ | @enter w _ _ _ hc _ =>
    cases w with
    | txn =>
      rw [hcalls] at hc
      cases hc
    | main | listener => exact Or.inl ⟨h, rfl⟩
  | @finish w hc _ =>
    cases w with
    | txn =>
      rw [hcalls] at hc
      cases hc
    | main | listener => exact Or.inl ⟨h, rfl⟩
  | _ => exact Or.inl ⟨h, rfl⟩

/-- `node.handle` waits for a signal that nobody will take. -/
def HandleStuck (x : Item) (taken : List Item) (g : Goroutines) : Prop :=
  g.main ≠ .waiting ∧ HandleSignals x g ∧ g.dispatched = taken

/-- `node.txn` does. -/
def TxnStuck (taken : ℕ) (g : Goroutines) : Prop := g.main ≠ .waiting ∧ TxnSignals g ∧ g.served = taken

theorem HandleStuck.acts {x : Item} {taken : List Item} (h : HandleStuck x taken g) (ha : Acts leads g m t) :
    HandleStuck x taken t := by
  obtain ⟨hw, hs, rfl⟩ := h
  exact ⟨main_acts hw ha, (hs.acts ha).resolve_right fun hn => hw hn.1⟩

theorem TxnStuck.acts {taken : ℕ} (h : TxnStuck taken g) (ha : Acts leads g m t) : TxnStuck taken t := by
  obtain ⟨hw, hs, rfl⟩ := h
  exact ⟨main_acts hw ha, (hs.acts ha).resolve_right fun hn => hw hn.1⟩

/-- Both goroutines are about to signal. -/
structure Racing (x : Item) (g₀ g : Goroutines) : Prop where
  handle : HandleSignals x g
  dispatched : g.dispatched = g₀.dispatched
  txn : TxnSignals g
  served : g.served = g₀.served

/-- The first signal that `Start` takes leaves the other goroutine stuck. -/
theorem Racing.acts {x : Item} {g₀ : Goroutines} (h : Racing x g₀ g) (ha : Acts leads g m t) :
    Racing x g₀ t ∨ HandleStuck x g₀.dispatched t ∨ TxnStuck g₀.served t := by
  rcases h.handle.acts ha with ⟨hh, hd⟩ | ⟨-, hw, htxn, hsv⟩
  · rcases h.txn.acts ha with ⟨ht, hsv⟩ | ⟨-, hw, -⟩
    · exact Or.inl ⟨hh, hd.trans h.dispatched, ht, hsv.trans h.served⟩
    · exact Or.inr (Or.inl ⟨hw, hh, hd.trans h.dispatched⟩)
  · refine Or.inr (Or.inr ⟨hw, ?_, hsv.trans h.served⟩)
    unfold TxnSignals
    rw [htxn]
    exact h.txn

/-- **Two signals.**  If a message and a client's transaction both find `isStarted` not set, then in every run from
there, however long, one of the two goroutines is the loser for the whole run: `node.handle` never gets out of
`startSignal` and takes no other message, or `node.txn` never does and takes no other transaction. -/
theorem start_race (leads : Bool) {ρ : ℕ → Goroutines} (hρ : (lts leads).Run ρ) {x : Item}
    (hx : HandleSignals x (ρ 0)) (ht : TxnSignals (ρ 0)) :
    (∀ n, HandleSignals x (ρ n) ∧ (ρ n).dispatched = (ρ 0).dispatched) ∨
      ∀ n, TxnSignals (ρ n) ∧ (ρ n).served = (ρ 0).served := by
  classical
  by_cases hall : ∀ n, Racing x (ρ 0) (ρ n)
  · exact Or.inl fun n => ⟨(hall n).handle, (hall n).dispatched⟩
  -- the first moment at which only one of them signals
  push Not at hall
  obtain ⟨k, hk, hbefore⟩ : ∃ k, ¬ Racing x (ρ 0) (ρ (k + 1)) ∧ ∀ n ≤ k, Racing x (ρ 0) (ρ n) := by
    have hfirst := Nat.find_spec hall
    cases hk : Nat.find hall with
    | zero =>
      rw [hk] at hfirst
      exact absurd ⟨hx, rfl, ht, rfl⟩ hfirst
    | succ k =>
      rw [hk] at hfirst
      exact ⟨k, hfirst, fun n hn => not_not.1 (Nat.find_min hall (by omega))⟩
  obtain hsame | ⟨m, ha⟩ := acts_of_run hρ k
  · exact absurd (hsame ▸ hbefore k le_rfl) hk
  rcases ((hbefore k le_rfl).acts ha).resolve_left hk with hstuck | hstuck
  · refine Or.inl fun n => ?_
    rcases Nat.lt_or_ge k n with hn | hn
    · exact (keepsRun (fun _ _ _ hi ha => HandleStuck.acts hi ha) hρ hstuck hn).2
    · exact ⟨(hbefore n hn).handle, (hbefore n hn).dispatched⟩
  · refine Or.inr fun n => ?_
    rcases Nat.lt_or_ge k n with hn | hn
    · exact (keepsRun (fun _ _ _ hi ha => TxnStuck.acts hi ha) hρ hstuck hn).2
    · exact ⟨(hbefore n hn).txn, (hbefore n hn).served⟩

/-- A message and a transaction have both found `isStarted` not set. -/
def bothBoosting : Goroutines :=
  { start with handle := .boosting .phalanx, txn := .boosting, dispatched := [.phalanx], served := 1 }

/-- `Start` takes the signal of `node.handle`. -/
def twoSignals : ℕ → Goroutines
  | 0 => bothBoosting
  | 1 => { bothBoosting with isStarted := true, handle := .starting .phalanx }
  | _ => { bothBoosting with isStarted := true, main := .idle, listener := .select, handle := .offering .phalanx }

theorem start_race_twoSignals :
    (lts false).Path (fun _ => True) start (twoSignals 0) ∧ (lts false).Run twoSignals ∧
      ∀ n, TxnSignals (twoSignals n) ∧ (twoSignals n).served = 1 := by
  have hpath : (lts false).Path (fun _ => True) start (twoSignals 0) := by
    let moves : List Move := [.dispatch .phalanx, .load, .request, .txnLoad]
    have hexec : (lts false).exec (fun _ => True) moves start = some (twoSignals 0) := by decide_cbv
    exact Lts.Path.of_exec hexec
  have hrun : (lts false).Run twoSignals := by
    rintro (_ | _ | n)
    · exact Or.inr (Lts.ofStep_step.2 ⟨.boost, trivial, rfl⟩)
    · exact Or.inr (Lts.ofStep_step.2 ⟨.wake, trivial, rfl⟩)
    · exact Or.inl rfl
  refine ⟨hpath, hrun, ?_⟩
  refine (start_race false hrun (Or.inl rfl) (Or.inl rfl)).resolve_left fun h => ?_
  rcases (h 2).1 with h2 | h2
  · cases h2
  · cases h2

end Goroutines

end Bamboo
