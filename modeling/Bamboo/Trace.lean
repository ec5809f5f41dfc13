import Bamboo.Forest

/-!
# The trace of a HotStuff replica

The program points that a replica of HotStuff or of its two-chain variants goes through, with the values
it finds there, in the order of time.  The handlers write a trace and never read it; it is what
statements about whole runs talk about.

* `Entry`: one program point;
* `pending`: the block that has been inserted and waits for the vote;
* `Forward`: votes in increasing views, and how each entry keeps them so.
-/

namespace Bamboo

/-- One program point a replica went through. -/
inductive Entry
  /-- `ProcessBlock` is about to hand the block's certificate to `updateHighQC`; `high` is the view of
  `highQC` -/
  | offered (b : Block) (high : ℤ)
  /-- `ProcessBlock` is about to call `AddBlock`; `lock` is `preferredView`, `parent` the stored block
  named by `PrevID` -/
  | accepted (b : Block) (lock : ℤ) (parent : Option Block)
  /-- the replica voted for the block -/
  | voted (b : Block)
  /-- `ProcessVote` built a certificate -/
  | built (qc : QC)
  /-- the replica committed `g` because of `qc`; `f` is the forest before the commit, and `batch` what
  was written to the channel -/
  | committed (qc : QC) (g : Block) (f : LevelledForest) (batch : List Block)
  deriving DecidableEq

/-- How an entry changes the block that is waiting for the vote. -/
def pendingNext (p : Option Block) : Entry → Option Block
  | .accepted b _ _ => some b
  | .voted _ => none
  | _ => p

/-- The block that was inserted last, if the replica has not voted since. -/
def pending (trace : List Entry) : Option Block := trace.foldl pendingNext none

@[simp] theorem pending_append (trace : List Entry) (e : Entry) :
    pending (trace ++ [e]) = pendingNext (pending trace) e := by
  simp [pending]

/-- The block that waits for the vote has been inserted. -/
theorem accepted_of_pending {trace : List Entry} {b : Block} (h : pending trace = some b) :
    ∃ lock parent, .accepted b lock parent ∈ trace := by
  induction trace using List.reverseRecOn with
  | nil => cases h
  | append_singleton trace e ih =>
    rw [pending_append] at h
    cases e with
    | accepted b' lock parent =>
      cases h
      exact ⟨lock, parent, by simp⟩
    | voted b' => cases h
    | _ =>
      obtain ⟨lock, parent, hm⟩ := ih h
      exact ⟨lock, parent, List.mem_append_left _ hm⟩

/-! ### Votes in increasing views -/

/-- The view of a vote. -/
def voteView : Entry → Option ℤ
  | .voted b => some b.view
  | _ => none

/-- The views the replica voted in, in the order of its votes. -/
def voteViews (trace : List Entry) : List ℤ := trace.filterMap voteView

/-- Whenever a block was inserted, the replica had not voted in the block's view nor in the next one. -/
def FreshInsertions (trace : List Entry) : Prop :=
  ∀ before b lock parent after, trace = before ++ .accepted b lock parent :: after →
    b.view ∉ voteViews before ∧ b.view + 1 ∉ voteViews before

theorem FreshInsertions.of_append {trace rest : List Entry} (h : FreshInsertions (trace ++ rest)) :
    FreshInsertions trace := by
  intro before b lock parent after heq
  refine h before b lock parent (after ++ rest) ?_
  rw [heq, List.append_assoc, List.cons_append]

/-- Votes so far are in increasing views, none more than one view ahead of the current view `cur`, and
all below the view of the block that waits for a vote. -/
structure Forward (trace : List Entry) (cur : ℤ) : Prop where
  window : ∀ v ∈ voteViews trace, v ≤ cur + 1
  increasing : (voteViews trace).Pairwise (· < ·)
  waiting : ∀ b, pending trace = some b → b.view ≤ cur + 1 ∧ ∀ v ∈ voteViews trace, v < b.view

theorem forward_nil (cur : ℤ) : Forward [] cur where
  window := by simp [voteViews]
  increasing := by simp [voteViews]
  waiting := fun _ h => by cases h

namespace Forward

variable {trace : List Entry} {cur cur' : ℤ} {e : Entry} {b : Block} {lock : ℤ} {parent : Option Block}

theorem mono (h : Forward trace cur) (hc : cur ≤ cur') : Forward trace cur' where
  window := fun v hv => by have := h.window v hv; omega
  increasing := h.increasing
  waiting := fun b hb => ⟨by have := (h.waiting b hb).1; omega, (h.waiting b hb).2⟩

/-- Entries other than insertions and votes do not matter. -/
theorem neutral (h : Forward trace cur) (hv : voteView e = none)
    (hp : ∀ p, pendingNext p e = p) : Forward (trace ++ [e]) cur := by
  have hviews : voteViews (trace ++ [e]) = voteViews trace := by simp [voteViews, hv]
  exact ⟨by rw [hviews]; exact h.window, by rw [hviews]; exact h.increasing,
    by rw [hviews, pending_append, hp]; exact h.waiting⟩

/-- A block within the window goes in: no vote so far was in its view, in the next one, or later. -/
theorem accepted (h : Forward trace cur) (hlow : cur ≤ b.view) (hup : b.view ≤ cur + 1)
    (hf : FreshInsertions (trace ++ [.accepted b lock parent])) :
    Forward (trace ++ [.accepted b lock parent]) cur := by
  have hviews : voteViews (trace ++ [.accepted b lock parent]) = voteViews trace := by
    simp [voteViews, voteView]
  refine ⟨by rw [hviews]; exact h.window, by rw [hviews]; exact h.increasing, ?_⟩
  intro c hc
  simp only [pending_append, pendingNext, Option.some.injEq] at hc
  subst hc
  refine ⟨hup, fun v hv => ?_⟩
  rw [hviews] at hv
  obtain ⟨hb, hb'⟩ := hf trace b lock parent [] rfl
  have hle := h.window v hv
  have h1 : v ≠ b.view := fun h => hb (h ▸ hv)
  have h2 : v ≠ b.view + 1 := fun h => hb' (h ▸ hv)
  omega

theorem voted (h : Forward trace cur) (hp : pending trace = some b) :
    Forward (trace ++ [.voted b]) cur := by
  obtain ⟨hup, hlt⟩ := h.waiting b hp
  have hviews : voteViews (trace ++ [.voted b]) = voteViews trace ++ [b.view] := by
    simp [voteViews, voteView]
  refine ⟨?_, ?_, fun c hc => by simp [pendingNext] at hc⟩
  · intro v hv
    rw [hviews, List.mem_append, List.mem_singleton] at hv
    rcases hv with hv | rfl
    · exact h.window v hv
    · exact hup
  · rw [hviews, List.pairwise_append]
    refine ⟨h.increasing, List.pairwise_singleton _ _, fun v hv x hx => ?_⟩
    rw [List.mem_singleton.1 hx]
    exact hlt v hv

end Forward

/-- A test for `FreshInsertions`, given the views voted in before. -/
def freshInsertions (views : List ℤ) : List Entry → Bool
  | [] => true
  | .accepted b _ _ :: es =>
    !views.contains b.view && !views.contains (b.view + 1) && freshInsertions views es
  | .voted b :: es => freshInsertions (views ++ [b.view]) es
  | _ :: es => freshInsertions views es

theorem freshInsertions_append {before after : List Entry} {b : Block} {lock : ℤ}
    {parent : Option Block} {views : List ℤ}
    (h : freshInsertions views (before ++ .accepted b lock parent :: after) = true) :
    b.view ∉ views ++ voteViews before ∧ b.view + 1 ∉ views ++ voteViews before := by
  induction before generalizing views with
  | nil =>
    simp only [List.nil_append, freshInsertions, Bool.and_eq_true, Bool.not_eq_true',
      List.contains_eq_mem, decide_eq_false_iff_not] at h
    simpa [voteViews] using h.1
  | cons e before ih =>
    cases e with
    | accepted b' lock' parent' =>
      simp only [List.cons_append, freshInsertions, Bool.and_eq_true] at h
      simpa [voteViews, voteView] using ih h.2
    | voted b' => simpa [voteViews, voteView] using ih h
    | _ => simpa [voteViews, voteView] using ih h

theorem freshInsertions_of_test {trace : List Entry} (h : freshInsertions [] trace = true) :
    FreshInsertions trace := by
  rintro before b lock parent after rfl
  simpa using freshInsertions_append h

end Bamboo
