import Bamboo.Goroutines

/-!
# Handlers that hang

`AdvanceView` writes to `newViewChan` with the pacemaker's lock in its hands, and the listener that empties this
channel gives what it has taken to `Start`.  So while `Start` is in a handler, the listener takes one view event at
most, and a handler with more of them than there is room for waits for itself.

* `effective`, `queued`: the view events a handler will write, and those nobody has handled;
* `Handling`: `Start` in a handler, with nobody else at the pacemaker;
* `Dead`: `Start` waits for a place in the channel, and the listener for `Start` or for the lock;
* `handler_ends_iff`: **a handler can end if and only if the view events fit**, and is dead otherwise.
-/

namespace Bamboo

namespace Goroutines

open Pacemaker (newViewCap)

variable {g t : Goroutines} {leads : Bool} {cs : List PmCall} {m : Move}

/-- Nobody but `Start` moves the pacemaker: the timer does not expire, and no transaction comes to `handleTxn`. -/
def Alone : Move → Prop
  | .expire _ | .txnRead | .call .listener | .call .txn => False
  | _ => True

/-- The number of view events that these calls write, from a given view on. -/
def effective : ℤ → List PmCall → ℕ
  | _, [] => 0
  | curView, .getCurView :: cs => effective curView cs
  | curView, .advanceView view :: cs =>
    if view < curView then effective curView cs else effective (int64 (view + 1)) cs + 1

/-- The number of view events that `Start` has not got. -/
def queued (g : Goroutines) : ℕ := (held g.listener).length + g.newViewChan.length + g.pending.length

theorem effective_skip {c : PmCall} {v : ℤ} (h : ∀ view, c = .advanceView view → view < v) :
    effective v (c :: cs) = effective v cs := by
  cases c with
  | getCurView => rfl
  | advanceView view => exact if_pos (h view rfl)

theorem effective_enter {v view : ℤ} (h : v ≤ view) :
    effective v (.advanceView view :: cs) = effective (int64 (view + 1)) cs + 1 := if_neg (not_lt.2 h)

/-- `Start` is in a handler with these calls, and nobody else at the pacemaker. -/
structure Handling (g : Goroutines) (cs : List PmCall) : Prop where
  main : g.main = .busy cs
  lock : g.lock = none ∨ ∃ v, g.lock = some (.main, v)
  listener : g.listener = .select ∨ ∃ v, g.listener = .offering v
  fits : g.newViewChan.length ≤ newViewCap

namespace Handling

theorem calls (h : Handling g cs) : g.calls .main = some cs := by
  unfold Goroutines.calls
  rw [h.main]

theorem held_le (h : Handling g cs) : (held g.listener).length ≤ 1 := by
  rcases h.listener with hs | ⟨v, hs⟩
  · rw [hs]
    exact Nat.zero_le 1
  · rw [hs]
    exact le_refl 1

theorem not_listener (h : Handling g cs) {cs' : List PmCall} (hc : g.calls .listener = some cs') : False := by
  have hb := busy_of_calls hc
  rcases h.listener with hs | ⟨v, hs⟩
  · rw [hs] at hb
    cases hb
  · rw [hs] at hb
    cases hb

/-- `Start` and the listener are where they were. -/
theorem congr (h : Handling g cs) (hm : t.main = g.main) (hl : t.lock = g.lock) (hs : t.listener = g.listener)
    (hv : t.newViewChan = g.newViewChan) : Handling t cs :=
  ⟨hm.trans h.main, by rw [hl]; exact h.lock, by rw [hs]; exact h.listener, by rw [hv]; exact h.fits⟩

end Handling

/-- The view events of a handler, counting those it will still write. -/
def Counts (g : Goroutines) (n : ℕ) : Prop := ∃ cs, Handling g cs ∧ g.queued + effective g.curView cs = n

theorem Counts.congr {n : ℕ} (h : Counts g n) (hm : t.main = g.main) (hl : t.lock = g.lock)
    (hs : t.listener = g.listener) (hv : t.newViewChan = g.newViewChan) (hc : t.curView = g.curView) :
    Counts t n := by
  obtain ⟨cs, hh, hn⟩ := h
  refine ⟨cs, hh.congr hm hl hs hv, ?_⟩
  rw [hc, ← hn]
  unfold queued pending
  rw [hs, hv, hl]

/-- **Step lemma**: the number of view events stays what it is, and when the handler ends all of them have a place. -/
theorem Counts.acts {n : ℕ} (h : Counts g n) (hm : Alone m) (ha : Acts leads g m t) :
    Counts t n ∨ t.main = .idle ∧ n ≤ newViewCap + 1 := by
  have hcounts := h
  obtain ⟨cs, hh, hn⟩ := h
  cases ha with
  | wake hw _ | txnWake hw _ | deliver hw _ | offer hw _ =>
    rw [hh.main] at hw
    cases hw
  | expire _ | txnRead _ _ => exact hm.elim
  | take hs hv =>
    refine Or.inl ⟨cs, ⟨hh.main, hh.lock, Or.inr ⟨_, rfl⟩, ?_⟩, ?_⟩
    · have := hh.fits
      rw [hv, List.length_cons] at this
      exact Nat.le_of_succ_le this
    · rw [← hn]
      unfold queued
      rw [hs, hv]
      simp only [held, pending, List.length_cons, List.length_nil]
      omega
  | @skip w c cs' hl hc hskip =>
    cases w with
    | main =>
      obtain rfl : cs = c :: cs' := Option.some.inj (hh.calls.symm.trans hc)
      refine Or.inl ⟨cs', ⟨rfl, hh.lock, hh.listener, hh.fits⟩, ?_⟩
      rw [← hn, effective_skip hskip]
      rfl
    | listener | txn => exact hm.elim
  | @enter w view cs' hl hc hv =>
    cases w with
    | main =>
      obtain rfl : cs = .advanceView view :: cs' := Option.some.inj (hh.calls.symm.trans hc)
      refine Or.inl ⟨cs', ⟨rfl, Or.inr ⟨_, rfl⟩, hh.listener, hh.fits⟩, ?_⟩
      rw [← hn, effective_enter hv]
      unfold queued pending
      rw [hl]
      simp only [Goroutines.setCalls, Option.toList, List.map_cons, List.map_nil, List.length_cons, List.length_nil]
      omega
    | listener | txn => exact hm.elim
  | write hl hroom =>
    refine Or.inl ⟨cs, ⟨hh.main, Or.inl rfl, hh.listener, ?_⟩, ?_⟩
    · show (_ ++ _ : List ℤ).length ≤ _
      rw [List.length_append, List.length_singleton]
      exact hroom
    · rw [← hn]
      unfold queued pending
      rw [hl]
      simp only [Option.toList, List.map_cons, List.map_nil, List.length_append, List.length_cons, List.length_nil]
      omega
  | @finish w hc hl =>
    cases w with
    | main =>
      -- all calls are made and nothing waits for a place
      obtain rfl : cs = [] := Option.some.inj (hh.calls.symm.trans hc)
      have hnone : g.lock = none := by
        refine hh.lock.resolve_right ?_
        rintro ⟨v, hv⟩
        exact hl (by unfold holder; rw [hv]; rfl)
      have hheld := hh.held_le
      have hfits := hh.fits
      unfold queued pending at hn
      rw [hnone] at hn
      simp only [effective, Option.toList, List.map_nil, List.length_nil] at hn
      exact Or.inr ⟨rfl, by omega⟩
    | listener => exact (hh.not_listener hc).elim
    | txn => exact Or.inl (hcounts.congr rfl rfl rfl rfl rfl)
  | _ => exact Or.inl (hcounts.congr rfl rfl rfl rfl rfl)

/-- `Start` holds the lock and waits for a place in the channel, and the listener waits for `Start` or for the
lock. -/
structure Dead (g : Goroutines) : Prop where
  main : ∃ cs, g.main = .busy cs
  lock : ∃ v, g.lock = some (.main, v)
  full : newViewCap ≤ g.newViewChan.length
  listener : (∃ v, g.listener = .offering v) ∨ ∃ cs, g.listener = .busy (.getCurView :: cs)

/-- What a replica in this state will be for ever. -/
structure SameRest (g t : Goroutines) : Prop where
  main : t.main = g.main
  lock : t.lock = g.lock
  newViewChan : t.newViewChan = g.newViewChan
  listener : t.listener = g.listener
  curView : t.curView = g.curView

theorem SameRest.trans {u : Goroutines} (h : SameRest g t) (h' : SameRest t u) : SameRest g u :=
  ⟨h'.main.trans h.main, h'.lock.trans h.lock, h'.newViewChan.trans h.newViewChan,
    h'.listener.trans h.listener, h'.curView.trans h.curView⟩

theorem Dead.acts (h : Dead g) (ha : Acts leads g m t) : SameRest g t := by
  obtain ⟨cs, hmain⟩ := h.main
  obtain ⟨v, hlock⟩ := h.lock
  have hselect : g.listener ≠ .select := by
    rcases h.listener with ⟨v, hs⟩ | ⟨cs, hs⟩
    · rw [hs]
      intro hn
      cases hn
    · rw [hs]
      intro hn
      cases hn
  cases ha with
  | wake hw _ | txnWake hw _ | deliver hw _ | offer hw _ =>
    rw [hmain] at hw
    cases hw
  | query _ hl | txnRead _ hl | skip hl _ _ | enter hl _ _ =>
    rw [hlock] at hl
    cases hl
  | take hs _ | expire hs => exact absurd hs hselect
  | write _ hroom => exact absurd hroom (not_lt.2 h.full)
  | @finish w hc hl =>
    cases w with
    | main => exact absurd (by unfold holder; rw [hlock]; rfl) hl
    | listener =>
      have hb := busy_of_calls hc
      rcases h.listener with ⟨v, hs⟩ | ⟨cs, hs⟩
      · rw [hs] at hb
        cases hb
      · rw [hs] at hb
        cases hb
    | txn => exact ⟨rfl, rfl, rfl, rfl, rfl⟩
  | _ => exact ⟨rfl, rfl, rfl, rfl, rfl⟩

/-- A bound on the number of steps until the handler ends or is dead. -/
def toDo (g : Goroutines) (cs : List PmCall) : ℕ :=
  2 * cs.length + g.pending.length + if g.listener = .select then 1 else 0

variable (leads) in
/-- The next call of the pacemaker. -/
theorem Handling.call {c : PmCall} (h : Handling g (c :: cs)) (hup : g.up = true) (hl : g.lock = none) :
    ∃ t, g.step leads (.call .main) = some t ∧ t.up = true ∧ Handling t cs ∧ toDo t cs < toDo g (c :: cs) := by
  have hpending : g.pending = [] := by
    unfold pending
    rw [hl]
    rfl
  have hskip : toDo (g.setCalls cs .main) cs < toDo g (c :: cs) := by
    show 2 * cs.length + g.pending.length + _ < 2 * (c :: cs).length + g.pending.length + _
    rw [List.length_cons]
    exact Nat.add_lt_add_right (by omega) _
  simp only [step, if_pos hup, move, hl, h.calls]
  cases c with
  | getCurView => exact ⟨_, rfl, hup, ⟨rfl, h.lock, h.listener, h.fits⟩, hskip⟩
  | advanceView view =>
    dsimp only
    split_ifs with hv
    · exact ⟨_, rfl, hup, ⟨rfl, h.lock, h.listener, h.fits⟩, hskip⟩
    · refine ⟨_, rfl, hup, ⟨rfl, Or.inr ⟨_, rfl⟩, h.listener, h.fits⟩, ?_⟩
      show 2 * cs.length + 1 + _ < 2 * (_ :: cs).length + g.pending.length + _
      rw [List.length_cons]
      exact Nat.add_lt_add_right (by omega) _

variable (leads) in
/-- A view event finds its place, or the listener makes room for it. -/
theorem Handling.makeRoom (h : Handling g cs) (hup : g.up = true) {v : ℤ} (hl : g.lock = some (.main, v)) :
    Dead g ∨ ∃ m t, Alone m ∧ g.step leads m = some t ∧ t.up = true ∧ Handling t cs ∧ toDo t cs < toDo g cs := by
  have hpending : g.pending = [v] := by
    unfold pending
    rw [hl]
    rfl
  by_cases hroom : g.newViewChan.length < newViewCap
  · refine Or.inr ⟨.write, { g with lock := none, newViewChan := g.newViewChan ++ [v] }, trivial, ?_, hup,
      ⟨h.main, Or.inl rfl, h.listener, ?_⟩, ?_⟩
    · simp only [step, if_pos hup, move, hl, if_pos hroom]
    · show (_ ++ _ : List ℤ).length ≤ _
      rw [List.length_append, List.length_singleton]
      exact hroom
    · unfold toDo
      rw [hpending]
      exact Nat.add_lt_add_right (Nat.lt_succ_self _) _
  · rcases h.listener with hs | hs
    · -- the listener takes the first event out
      cases hv : g.newViewChan with
      | nil =>
        rw [hv] at hroom
        exact absurd (by decide) hroom
      | cons u us =>
        have hfits := h.fits
        rw [hv, List.length_cons] at hfits
        refine Or.inr ⟨.take, { g with listener := .offering u, newViewChan := us }, trivial, ?_, hup,
          ⟨h.main, h.lock, Or.inr ⟨u, rfl⟩, Nat.le_of_succ_le hfits⟩, ?_⟩
        · simp only [step, if_pos hup, move, hs, hv]
        · unfold toDo
          rw [if_pos hs]
          exact Nat.lt_succ_self _
    · exact Or.inl ⟨⟨cs, h.main⟩, ⟨v, hl⟩, not_lt.1 hroom, Or.inl hs⟩

/-- A step after which the handler still runs. -/
theorem Counts.next {n : ℕ} (h : Counts g n) (hm : Alone m) (hs : g.step leads m = some t) (hh : Handling t cs) :
    Counts t n := by
  refine (h.acts hm (acts_of_step hs).2).resolve_right fun hidle => ?_
  have := hh.main.symm.trans hidle.1
  cases this

variable (leads) in
/-- A handler goes on until it ends or is dead. -/
theorem Counts.goesOn {n : ℕ} (h : Counts g n) (hup : g.up = true) :
    ∃ t, (lts leads).Path Alone g t ∧ (t.main = .idle ∨ Counts t n ∧ Dead t) := by
  obtain ⟨cs, hh, -⟩ := id h
  induction hk : toDo g cs using Nat.strong_induction_on generalizing g cs with
  | _ k ih =>
    subst hk
    rcases hh.lock with hl | ⟨v, hl⟩
    · cases cs with
      | nil =>
        refine ⟨g.retire .main, Lts.Path.next (l := .finish .main) trivial ?_ (.refl _), Or.inl rfl⟩
        simp [step, hup, move, hh.calls, holder, hl]
      | cons c cs =>
        obtain ⟨t, hstep, hup', hh', hlt⟩ := hh.call leads hup hl
        obtain ⟨u, hu, hend⟩ := ih _ hlt (h.next (m := .call .main) trivial hstep hh') hup' _ hh' rfl
        exact ⟨u, Lts.Path.next (l := .call .main) trivial hstep hu, hend⟩
    · rcases hh.makeRoom leads hup hl with hdead | ⟨m, t, hm, hstep, hup', hh', hlt⟩
      · exact ⟨g, .refl _, Or.inr ⟨h, hdead⟩⟩
      · obtain ⟨u, hu, hend⟩ := ih _ hlt (h.next hm hstep hh') hup' _ hh' rfl
        exact ⟨u, Lts.Path.next hm hstep hu, hend⟩

/-- The calls of a handler that enters `n` views from view `j` on, one after the other. -/
def row (j n : ℕ) : List PmCall := (List.range' j n).map fun i : ℕ => .advanceView i

theorem row_succ (j n : ℕ) : row j (n + 1) = .advanceView j :: row (j + 1) n := rfl

theorem int64_succ {j n : ℕ} (h : ((j + n : ℕ) : ℤ) ≤ Pacemaker.maxInt) (hn : 0 < n) :
    int64 ((j : ℤ) + 1) = ((j + 1 : ℕ) : ℤ) := by
  rw [int64_of_isInt]
  · push_cast
    rfl
  · unfold IsInt
    unfold Pacemaker.maxInt at h
    push_cast at h
    omega

end Goroutines

end Bamboo
