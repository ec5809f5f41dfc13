import Mathlib

/-!
# A queue with two entrances

A list that is filled at both ends and emptied at its front.

* `State.step`, `run`: the queue, together with what has left it;
* `perm_run`: nothing is lost, and nothing comes twice;
* `filter_run`: what comes in at the back leaves in the order in which it came;
* `Later`, `pair_sublist_run`: what comes in at the front leaves before everything that was there.
-/

namespace Deque

variable {α β : Type}

/-- What is done to the queue. -/
inductive Event (α : Type)
  | pushBack (a : α)
  | pushFront (a : α)
  | take (n : ℕ)

/-- The same with other things. -/
def Event.map (f : α → β) : Event α → Event β
  | .pushBack a => .pushBack (f a)
  | .pushFront a => .pushFront (f a)
  | .take n => .take n

/-- What has left the queue, in its order, and what is in it. -/
structure State (α : Type) where
  out : List α
  pool : List α

namespace State

/-- The same with other things. -/
def map (f : α → β) (s : State α) : State β := ⟨s.out.map f, s.pool.map f⟩

variable {s t u : State α}

/-- One event. -/
def step (s : State α) : Event α → State α
  | .pushBack a => { s with pool := s.pool ++ [a] }
  | .pushFront a => { s with pool := a :: s.pool }
  | .take n => ⟨s.out ++ s.pool.take n, s.pool.drop n⟩

theorem step_map (f : α → β) (s : State α) (e : Event α) : (s.map f).step (e.map f) = (s.step e).map f := by
  cases e <;> simp [step, map, Event.map]

/-- Everything that came in, in the order in which it leaves if nothing else comes. -/
def order (s : State α) : List α := s.out ++ s.pool

/-- What is known of the queue in a later state: more has left, and what was there has kept its order. -/
def Later (s t : State α) : Prop := ∃ more, t.out = s.out ++ more ∧ s.pool.Sublist (more ++ t.pool)

theorem Later.refl (s : State α) : Later s s := ⟨[], by simp⟩

theorem Later.trans (h : Later s t) (h' : Later t u) : Later s u := by
  obtain ⟨more, hout, hpool⟩ := h
  obtain ⟨more', hout', hpool'⟩ := h'
  refine ⟨more ++ more', by rw [hout', hout, List.append_assoc], hpool.trans ?_⟩
  rw [List.append_assoc]
  exact hpool'.append_left more

theorem later_step (s : State α) (e : Event α) : Later s (s.step e) := by
  cases e with
  | pushBack a => exact ⟨[], by simp [step], by simp [step]⟩
  | pushFront a => exact ⟨[], by simp [step], by simp [step]⟩
  | take n => exact ⟨s.pool.take n, rfl, by simp [step]⟩

theorem later_foldl (s : State α) (es : List (Event α)) : Later s (es.foldl step s) := by
  induction es generalizing s with
  | nil => exact .refl s
  | cons e es ih => exact (later_step s e).trans (ih _)

/-- Of two things in the queue, the first leaves before the second. -/
theorem pair_sublist_out {a b : α} (h : Later s t) (hs : [a, b].Sublist s.pool) (ht : t.order.Nodup)
    (hb : b ∈ t.out) : [a, b].Sublist t.out := by
  obtain ⟨more, hout, hpool⟩ := h
  obtain ⟨l₁, l₂, heq, h₁, h₂⟩ := List.sublist_append_iff.1 (hs.trans hpool)
  have hb' : b ∉ t.pool := fun hmem => (List.nodup_append.1 ht).2.2 b hb b hmem rfl
  -- the second is not among those that stay
  have hl₂ : l₂ = [] := by
    rcases List.eq_nil_or_concat l₂ with h | ⟨l, c, hc⟩
    · exact h
    · have hcb : b = c := by
        have := congrArg List.getLast? heq
        simpa [hc] using this
      subst hcb
      exact absurd (h₂.subset (by simp [hc])) hb'
  rw [hl₂, List.append_nil] at heq
  rw [heq, hout]
  exact h₁.trans (List.sublist_append_right _ _)

end State

/-- The events, one after the other, on an empty queue. -/
def run (es : List (Event α)) : State α := es.foldl State.step ⟨[], []⟩

/-- What comes in at the back. -/
def backs (es : List (Event α)) : List α := es.filterMap fun
  | .pushBack a => some a
  | _ => none

/-- What comes in at the front. -/
def fronts (es : List (Event α)) : List α := es.filterMap fun
  | .pushFront a => some a
  | _ => none

theorem run_append (es fs : List (Event α)) : run (es ++ fs) = fs.foldl State.step (run es) := List.foldl_append

/-- The queue does not look at what it holds. -/
theorem run_map (f : α → β) (es : List (Event α)) : run (es.map (Event.map f)) = (run es).map f := by
  induction es using List.reverseRecOn with
  | nil => rfl
  | append_singleton es e ih =>
    rw [List.map_append, run_append, run_append, ih]
    exact State.step_map f (run es) e

theorem backs_append (es fs : List (Event α)) : backs (es ++ fs) = backs es ++ backs fs := List.filterMap_append

theorem fronts_append (es fs : List (Event α)) : fronts (es ++ fs) = fronts es ++ fronts fs :=
  List.filterMap_append

/-- **What comes in at the front leaves first.** -/
theorem pair_sublist_run {es fs : List (Event α)} {a b : α} (hn : (run (es ++ .pushFront a :: fs)).order.Nodup)
    (hb : b ∈ (run es).pool) (hout : b ∈ (run (es ++ .pushFront a :: fs)).out) :
    [a, b].Sublist (run (es ++ .pushFront a :: fs)).out := by
  rw [run_append] at hn hout ⊢
  exact State.pair_sublist_out (State.later_foldl ((run es).step (.pushFront a)) fs)
    ((List.singleton_sublist.2 hb).cons_cons a) hn hout

/-- **Nothing is lost and nothing comes twice.** -/
theorem perm_run (es : List (Event α)) : (run es).order.Perm (backs es ++ fronts es) := by
  induction es using List.reverseRecOn with
  | nil => exact .nil
  | append_singleton es e ih =>
    rw [run_append, backs_append, fronts_append]
    cases e with
    | pushBack a =>
      show ((run es).out ++ ((run es).pool ++ [a])).Perm ((backs es ++ [a]) ++ (fronts es ++ []))
      rw [← List.append_assoc, List.append_nil, List.append_assoc (backs es)]
      exact (ih.append_right [a]).trans (by
        rw [List.append_assoc]
        exact (List.perm_append_comm).append_left _)
    | pushFront a =>
      show ((run es).out ++ a :: (run es).pool).Perm ((backs es ++ []) ++ (fronts es ++ [a]))
      rw [List.append_nil, ← List.append_assoc]
      exact List.perm_middle.trans ((ih.cons a).trans (List.perm_append_singleton a _).symm)
    | take n =>
      show ((run es).out ++ (run es).pool.take n ++ (run es).pool.drop n).Perm ((backs es ++ []) ++ (fronts es ++ []))
      rw [List.append_assoc, List.take_append_drop, List.append_nil, List.append_nil]
      exact ih

/-- **What comes in at the back keeps its order**, for any test that tells it from what comes in at the front. -/
theorem filter_run {p : α → Bool} {es : List (Event α)} (hb : ∀ a ∈ backs es, p a = true)
    (hf : ∀ a ∈ fronts es, p a = false) : (run es).order.filter p = backs es := by
  induction es using List.reverseRecOn with
  | nil => rfl
  | append_singleton es e ih =>
    rw [backs_append] at hb ⊢
    rw [fronts_append] at hf
    have hih := ih (fun a ha => hb a (List.mem_append_left _ ha)) fun a ha => hf a (List.mem_append_left _ ha)
    rw [run_append]
    cases e with
    | pushBack a =>
      have ha : p a = true := hb a (by simp [backs])
      show ((run es).out ++ ((run es).pool ++ [a])).filter p = backs es ++ [a]
      rw [← List.append_assoc, List.filter_append, ← hih, State.order]
      simp [ha]
    | pushFront a =>
      have ha : p a = false := hf a (by simp [fronts])
      show ((run es).out ++ a :: (run es).pool).filter p = backs es ++ []
      rw [List.append_nil, ← hih, State.order]
      simp [ha]
    | take n =>
      show ((run es).out ++ (run es).pool.take n ++ (run es).pool.drop n).filter p = backs es ++ []
      rw [List.append_nil, List.append_assoc, List.take_append_drop]
      exact hih

end Deque
