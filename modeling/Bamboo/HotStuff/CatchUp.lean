import Bamboo.HotStuff.Buffers
import Bamboo.HotStuff.Rounds

/-!
# Catching up with a row of blocks

A replica that gets the blocks of a row in any order buffers those of later views and goes on with them once
the blocks before are there.  In the end it has done what it would have done with the blocks in order.

* `Follows`: what a replica needs to follow a row;
* `Advances`: the replica goes on from one view to another;
* `processBlockN_row`: a block, and the buffered ones after it;
* `Gathered`: what the replica has of the blocks received so far, up to the first gap and beyond;
* `catch_up`: all orders of arrival lead to the same commits, votes and views.
-/

namespace Bamboo

namespace HotStuff

open Prog

variable {nd : Node} {b : ℕ → Block} {k v w : ℕ} {s t u : HotStuff} {seen : List ℕ}

/-- A replica that follows the row: other nodes propose its blocks. -/
structure Follows (nd : Node) (b : ℕ → Block) (k : ℕ) : Prop extends Able nd where
  row : Row nd.toConfig b k
  proposer : ∀ v, 1 ≤ v → v ≤ k → (b v).proposer ≠ nd.id

/-- The replica goes on from view `v` to view `w`, and votes in each view on the way. -/
structure Advances (nd : Node) (b : ℕ → Block) (v w : ℕ) (s t : HotStuff) : Prop where
  inStep : InStep nd.toConfig b w w t
  sent : t.sent = s.sent ++ (List.range' (v + 1) (w - v)).flatMap fun u => voteSent nd (b u)
  chan : t.pm.newViewChan = s.pm.newViewChan ++ (List.range' (v + 1) (w - v)).map fun u : ℕ => (u : ℤ)

/-- The views from `u` to `w`, by way of `v`. -/
theorem range'_views {u v w : ℕ} (huv : u ≤ v) (hvw : v ≤ w) :
    List.range' (u + 1) (w - u) = List.range' (u + 1) (v - u) ++ List.range' (v + 1) (w - v) := by
  rw [show w - u = (v - u) + (w - v) by omega, ← List.range'_append_1, show u + 1 + (v - u) = v + 1 by omega]

theorem Advances.trans {x : ℕ} (h : Advances nd b x v s u) (h' : Advances nd b v w u t) (hx : x ≤ v)
    (hw : v ≤ w) : Advances nd b x w s t where
  inStep := h'.inStep
  sent := by rw [h'.sent, h.sent, range'_views hx hw, List.flatMap_append, List.append_assoc]
  chan := by rw [h'.chan, h.chan, range'_views hx hw, List.map_append, List.append_assoc]

/-! ### A block and those after it -/

/-- One round of `ProcessBlock`. -/
theorem round_row (h : Able nd) (hr : Row nd.toConfig b (v + 1)) (hprop : (b (v + 1)).proposer ≠ nd.id)
    (hs : InStep nd.toConfig b v v s) :
    ∃ t u, vetBlock nd (b (v + 1)) s = .ok none t ∧ insertAndVote nd (b (v + 1)) t = .ok none u ∧
      Advances nd b v (v + 1) s u ∧ u.bufferedBlocks = s.bufferedBlocks := by
  obtain ⟨t, ht, hin, hent⟩ := vetBlock_row nd h.honest hr hs hprop
  obtain ⟨u, hu, hin', hins⟩ := insertAndVote_row h hr hin
  have hone : v + 1 - v = 1 := by omega
  refine ⟨t, u, ht, hu, ⟨hin', ?_, ?_⟩, hins.blocks.trans hent.blocks⟩
  · rw [hins.sent, hent.sent, hone]
    simp
  · rw [hins.chan, hent.chan, hone]
    rfl

/-- **A block and the buffered ones after it**: `ProcessBlock` goes on up to the first gap, and empties the
buffer up to there. -/
theorem processBlockN_row {j fuel : ℕ} (h : Able nd) (hr : Row nd.toConfig b (v + 1 + j))
    (hprop : ∀ w, v < w → w ≤ v + 1 + j → (b w).proposer ≠ nd.id) (hs : InStep nd.toConfig b v v s)
    (hf : j < fuel) (hheld : ∀ i, i < j → s.bufferedBlocks.lookup ((v + 1 + i : ℕ) : ℤ) = some (b (v + 2 + i)))
    (hgap : s.bufferedBlocks.lookup ((v + 1 + j : ℕ) : ℤ) = none) :
    ∃ t, processBlockN nd fuel (b (v + 1)) s = .ok none t ∧ Advances nd b v (v + 1 + j) s t ∧
      ∀ x : ℤ, t.bufferedBlocks.lookup x =
        if ((v + 1 : ℕ) : ℤ) ≤ x ∧ x < ((v + 1 + j : ℕ) : ℤ) then none else s.bufferedBlocks.lookup x := by
  induction j generalizing v s fuel with
  | zero =>
    obtain ⟨fuel, rfl⟩ := Nat.exists_eq_succ_of_ne_zero (by omega : fuel ≠ 0)
    obtain ⟨t, u, ht, hu, hadv, hbuf⟩ := round_row h hr (hprop _ (by omega) le_rfl) hs
    have hlk : u.bufferedBlocks.lookup (b (v + 1)).view = none := by
      rw [hbuf, hr.view (v + 1) (by omega) le_rfl]
      exact hgap
    refine ⟨u, ?_, hadv, fun x => by rw [hbuf, if_neg (by omega)]⟩
    unfold processBlockN
    rw [bind_apply_ok ht]
    dsimp only
    rw [bind_apply_ok hu]
    dsimp only
    rw [get_bind_apply, hlk]
    rfl
  | succ j ih =>
    obtain ⟨fuel, rfl⟩ := Nat.exists_eq_succ_of_ne_zero (by omega : fuel ≠ 0)
    obtain ⟨t, u, ht, hu, hadv, hbuf⟩ := round_row h (hr.mono (by omega))
      (hprop _ (by omega) (by omega)) hs
    have hview : (b (v + 1)).view = ((v + 1 : ℕ) : ℤ) := hr.view (v + 1) (by omega) (by omega)
    have hlk : u.bufferedBlocks.lookup (b (v + 1)).view = some (b (v + 1 + 1)) := by
      rw [hbuf, hview]
      exact hheld 0 (by omega)
    have hpos : v + 1 + 1 + j = v + 1 + (j + 1) := by omega
    obtain ⟨w, hw, hadv', hbuf'⟩ := ih (v := v + 1) (s := u) (hpos ▸ hr)
      (fun w hw hle => hprop w (by omega) (by omega)) hadv.inStep (show j < fuel by omega)
      (fun i hi => by
        have := hheld (i + 1) (by omega)
        rw [hbuf, show v + 1 + 1 + i = v + 1 + (i + 1) by omega, this]
        congr 2
        omega)
      (by rw [hbuf, hpos]; exact hgap)
    refine ⟨_, processBlockN_next ht hu hlk hw, ?_, fun x => ?_⟩
    · have hall := hadv.trans hadv' (by omega) (by omega)
      rw [hpos] at hall
      exact ⟨{ hall.inStep with }, hall.sent, hall.chan⟩
    · dsimp only
      rw [hview]
      by_cases hx : x = ((v + 1 : ℕ) : ℤ)
      · rw [hx, AList.lookup_erase, if_pos (by omega)]
      · rw [AList.lookup_erase_ne hx, hbuf', hbuf]
        have hiff : (((v + 1 + 1 : ℕ) : ℤ) ≤ x ∧ x < ((v + 1 + 1 + j : ℕ) : ℤ)) ↔
            (((v + 1 : ℕ) : ℤ) ≤ x ∧ x < ((v + 1 + (j + 1) : ℕ) : ℤ)) := by
          push_cast at hx ⊢
          omega
        simp only [hiff]

/-! ### Blocks in any order -/

/-- What a replica has of the blocks `seen`: it has gone on to the first gap, and the blocks beyond it are in
the buffer. -/
structure Gathered (nd : Node) (b : ℕ → Block) (seen : List ℕ) (v : ℕ) (s : HotStuff) : Prop where
  advances : Advances nd b 0 v (HotStuff.new nd.n) s
  below : ∀ w, 1 ≤ w → w ≤ v → w ∈ seen
  gap : v + 1 ∉ seen
  held : ∀ w ∈ seen, v + 1 < w → s.bufferedBlocks.lookup ((w : ℤ) - 1) = some (b w)
  only : ∀ x c, s.bufferedBlocks.lookup x = some c → ∃ w ∈ seen, v + 1 < w ∧ x = (w : ℤ) - 1

theorem gathered_new (nd : Node) (b : ℕ → Block) : Gathered nd b [] 0 (HotStuff.new nd.n) where
  advances := ⟨inStep_new nd.toConfig b, by simp, by simp⟩
  below := fun w h1 h0 => by omega
  gap := List.not_mem_nil
  held := fun w hw => absurd hw List.not_mem_nil
  only := fun x c hx => by simp [HotStuff.new] at hx

/-- There are as many buffered blocks as keys in a row. -/
theorem le_length_of_held {m : GoMap ℤ Block} {j : ℕ} (h : ∀ i, i < j → m.lookup ((v + i : ℕ) : ℤ) ≠ none) :
    j ≤ m.entries.length := by
  have hsub : (List.range j).map (fun i => ((v + i : ℕ) : ℤ)) ⊆ m.keys := by
    intro x hx
    obtain ⟨i, hi, rfl⟩ := List.mem_map.1 hx
    obtain ⟨c, hc⟩ := Option.ne_none_iff_exists'.1 (h i (List.mem_range.1 hi))
    exact GoMap.mem_keys hc
  have hnd : ((List.range j).map fun i => ((v + i : ℕ) : ℤ)).Nodup :=
    List.Nodup.map (fun i i' hi => by push_cast at hi; omega) List.nodup_range
  have hle := (List.subperm_of_subset hnd hsub).length_le
  rw [List.length_map, List.length_range] at hle
  rwa [AList.keys, List.keys, List.length_map] at hle

/-- A block beyond the gap is buffered. -/
theorem Gathered.buffer (hg : Gathered nd b seen v s) (h : Follows nd b k) (h1 : 1 ≤ w) (hw : w ≤ k)
    (hfar : v + 1 < w) :
    ∃ t, processBlock nd (b w) s = .ok none t ∧ Gathered nd b (seen ++ [w]) v t := by
  have hview := h.row.view w h1 hw
  refine ⟨_, processBlockN_far _ (checkBlock_row (h.row.mono hw) h1)
    (by rw [hg.advances.inStep.view, hview]; omega), ?_⟩
  refine ⟨⟨{ hg.advances.inStep with }, hg.advances.sent, hg.advances.chan⟩,
    fun u hu huv => List.mem_append_left _ (hg.below u hu huv), ?_, fun u hu hlt => ?_, fun x c hx => ?_⟩
  · rw [List.mem_append, List.mem_singleton, not_or]
    exact ⟨hg.gap, by omega⟩
  · dsimp only
    rw [hview]
    by_cases hu' : u = w
    · subst hu'
      rw [AList.lookup_insert]
    · rw [AList.lookup_insert_ne (by omega)]
      rw [List.mem_append, List.mem_singleton] at hu
      exact hg.held u (hu.resolve_right hu') hlt
  · dsimp only at hx
    rw [hview] at hx
    by_cases hxw : x = (w : ℤ) - 1
    · exact ⟨w, List.mem_append_right _ (List.mem_singleton_self w), hfar, hxw⟩
    · rw [AList.lookup_insert_ne hxw] at hx
      obtain ⟨u, hu, hrest⟩ := hg.only x c hx
      exact ⟨u, List.mem_append_left _ hu, hrest⟩

/-- The block at the gap takes the replica to the next gap. -/
theorem Gathered.fill (hg : Gathered nd b seen v s) (h : Follows nd b k) (hv : v + 1 ≤ k)
    (hseen : ∀ w ∈ seen, 1 ≤ w ∧ w ≤ k) :
    ∃ t v', processBlock nd (b (v + 1)) s = .ok none t ∧ Gathered nd b (seen ++ [v + 1]) v' t := by
  -- the blocks up to the next gap
  have hex : ∃ j, v + 2 + j ∉ seen := ⟨k, fun hk => by have := hseen _ hk; omega⟩
  obtain ⟨j, hj, hmin⟩ : ∃ j, v + 2 + j ∉ seen ∧ ∀ i, i < j → v + 2 + i ∈ seen := by
    classical
    exact ⟨Nat.find hex, Nat.find_spec hex, fun i hi => not_not.1 (Nat.find_min hex hi)⟩
  have hlast : v + 1 + j ≤ k := by
    rcases Nat.eq_zero_or_pos j with rfl | hpos
    · exact hv
    · have := (hseen _ (hmin (j - 1) (by omega))).2
      omega
  have hheld : ∀ i, i < j → s.bufferedBlocks.lookup ((v + 1 + i : ℕ) : ℤ) = some (b (v + 2 + i)) := by
    intro i hi
    have hl := hg.held _ (hmin i hi) (by omega)
    rwa [show ((v + 2 + i : ℕ) : ℤ) - 1 = ((v + 1 + i : ℕ) : ℤ) by push_cast; omega] at hl
  have hgap : s.bufferedBlocks.lookup ((v + 1 + j : ℕ) : ℤ) = none := by
    rw [Option.eq_none_iff_forall_ne_some]
    intro c hc
    obtain ⟨u, hu, -, hx⟩ := hg.only _ c hc
    obtain rfl : u = v + 2 + j := by push_cast at hx; omega
    exact hj hu
  have hfuel : j < s.bufferedBlocks.entries.length + 1 :=
    Nat.lt_succ_of_le (le_length_of_held fun i hi => by rw [hheld i hi]; exact Option.some_ne_none _)
  obtain ⟨t, ht, hadv, hbuf⟩ := processBlockN_row h.toAble (h.row.mono hlast)
    (fun w hw hle => h.proposer w (by omega) (by omega)) hg.advances.inStep hfuel hheld hgap
  refine ⟨t, v + 1 + j, ht, hg.advances.trans hadv (by omega) (by omega), fun w h1 hw => ?_, ?_,
    fun w hw hlt => ?_, fun x c hx => ?_⟩
  · rw [List.mem_append, List.mem_singleton]
    rcases Nat.lt_or_ge v w with hlt | hle
    · rcases Nat.eq_or_lt_of_le hlt with heq | hlt
      · exact Or.inr heq.symm
      · have := hmin (w - (v + 2)) (by omega)
        rw [show v + 2 + (w - (v + 2)) = w by omega] at this
        exact Or.inl this
    · exact Or.inl (hg.below w h1 hle)
  · rw [List.mem_append, List.mem_singleton, not_or]
    refine ⟨?_, by omega⟩
    rwa [show v + 1 + j + 1 = v + 2 + j by omega]
  · rw [hbuf, if_neg (by push_cast; omega)]
    rw [List.mem_append, List.mem_singleton] at hw
    exact hg.held w (hw.resolve_right (by omega)) (by omega)
  · rw [hbuf] at hx
    split_ifs at hx with hin
    obtain ⟨w, hw, hlt, rfl⟩ := hg.only x c hx
    refine ⟨w, List.mem_append_left _ hw, ?_, rfl⟩
    by_contra hle
    -- a block up to the gap would have been taken from the buffer
    have hne : w ≠ v + 2 + j := fun he => hj (he ▸ hw)
    push_cast at hin
    omega

/-- **Step lemma**: one more block of the row. -/
theorem Gathered.receive (hg : Gathered nd b seen v s) (h : Follows nd b k) (hseen : ∀ w ∈ seen, 1 ≤ w ∧ w ≤ k)
    (h1 : 1 ≤ w) (hw : w ≤ k) (hnew : w ∉ seen) :
    ∃ t v', processBlock nd (b w) s = .ok none t ∧ Gathered nd b (seen ++ [w]) v' t := by
  have hv : v < w := by
    by_contra hle
    exact hnew (hg.below w h1 (by omega))
  rcases Nat.eq_or_lt_of_le hv with heq | hlt
  · obtain rfl : w = v + 1 := heq.symm
    exact hg.fill h hw hseen
  · obtain ⟨t, ht, hg'⟩ := hg.buffer h h1 hw hlt
    exact ⟨t, v, ht, hg'⟩

/-- **Run lemma**: any number of different blocks of the row, in any order. -/
theorem gathered_run (h : Follows nd b k) {vs : List ℕ} (hnd : vs.Nodup) (hvs : ∀ w ∈ vs, 1 ≤ w ∧ w ≤ k) :
    ((safety nd).run nd (HotStuff.new nd.n) (vs.map fun w => .msg (.block (b w)))).up = true ∧
      ∃ v, Gathered nd b vs v
        ((safety nd).run nd (HotStuff.new nd.n) (vs.map fun w => .msg (.block (b w)))).st := by
  induction vs using List.reverseRecOn with
  | nil => exact ⟨rfl, 0, gathered_new nd b⟩
  | append_singleton vs w ih =>
    obtain ⟨hnd', -, hdisj⟩ := List.nodup_append'.1 hnd
    obtain ⟨hup, v, hg⟩ := ih hnd' fun u hu => hvs u (List.mem_append_left _ hu)
    have hwk := hvs w (List.mem_append_right _ (List.mem_singleton_self w))
    obtain ⟨t, v', ht, hg'⟩ := hg.receive h (fun u hu => hvs u (List.mem_append_left _ hu)) hwk.1 hwk.2
      fun hmem => hdisj hmem (List.mem_singleton_self w)
    have hmsg : (safety nd).handleMsg (.block (b w))
        ((safety nd).run nd (HotStuff.new nd.n) (vs.map fun w => .msg (.block (b w)))).st = .ok () t :=
      bind_apply_ok ht
    rw [List.map_append, List.map_singleton, Safety.run_concat, Safety.step, if_pos hup]
    dsimp only [Net.Proc.run]
    rw [hmsg]
    exact ⟨rfl, v', hg'⟩

/-- A buffer without entries. -/
theorem eq_empty_of_lookup {m : GoMap ℤ Block} (h : ∀ x, m.lookup x = none) : m = ∅ := by
  refine AList.ext (List.eq_nil_iff_forall_not_mem.2 fun e he => ?_)
  have := AList.mem_lookup_iff.2 he
  rw [h] at this
  cases this

/-- **The order of arrival does not matter.**  A replica that gets the blocks of a row, each once, in whatever
order, stays up and ends in the view of the last one; it has committed the blocks of all but the last three
views, in their order, and forked none; it has voted once for each block, and its buffer is empty.  The row is no
longer than the channel of view events, which may get all of them in one handler. -/
theorem catch_up (nd : Node) (b : ℕ → Block) (k : ℕ) (_hk : k ≤ Pacemaker.newViewCap) (h : Follows nd b k)
    (vs : List ℕ) (hvs : vs.Perm (List.range' 1 k)) :
    let p := (safety nd).run nd (HotStuff.new nd.n) (vs.map fun v => .msg (.block (b v)))
    p.up = true ∧ p.st.pm.curView = k ∧ p.st.committedBlocks = (List.range' 1 (k - 3)).map b ∧
      p.st.forkedBlocks = [] ∧ p.st.sent = (List.range' 1 k).flatMap (fun v => voteSent nd (b v)) ∧
      p.st.pm.newViewChan = (List.range' 1 k).map (fun v : ℕ => (v : ℤ)) ∧ p.st.bufferedBlocks = ∅ := by
  have hmem : ∀ w, w ∈ vs ↔ 1 ≤ w ∧ w ≤ k := fun w => by
    rw [hvs.mem_iff, List.mem_range'_1]
    omega
  obtain ⟨hup, v, hg⟩ := gathered_run h (hvs.nodup_iff.2 List.nodup_range') fun w hw => (hmem w).1 hw
  obtain rfl : v = k := by
    have hgap := hg.gap
    rw [hmem] at hgap
    rcases Nat.eq_zero_or_pos v with rfl | hpos
    · omega
    · have := (hmem v).1 (hg.below v hpos le_rfl)
      omega
  have hin := hg.advances.inStep
  refine ⟨hup, hin.view, hin.committed, hin.forked, ?_, ?_, ?_⟩
  · simpa [HotStuff.new] using hg.advances.sent
  · simpa [HotStuff.new, Pacemaker.new] using hg.advances.chan
  · refine eq_empty_of_lookup fun x => Option.eq_none_iff_forall_ne_some.2 fun c hc => ?_
    obtain ⟨w, hw, hlt, -⟩ := hg.only x c hc
    have := (hmem w).1 hw
    omega

/-- Node 2 follows the blocks of node 1. -/
theorem follows_second (k : ℕ) : Follows FourNodes.second FourNodes.rowBlock k where
  honest := rfl
  others := by decide
  verify := FourNodes.signaturesVerify _
  key := ⟨1, rfl⟩
  row := FourNodes.row k
  proposer := fun v _ _ => show ("1" : NodeID) ≠ "2" by decide

/-- Six blocks in disorder. -/
theorem catch_up_disorder :
    let p := (safety FourNodes.second).run FourNodes.second (HotStuff.new FourNodes.second.n)
      ([3, 6, 1, 5, 2, 4].map fun v => .msg (.block (FourNodes.rowBlock v)))
    p.up = true ∧ p.st.committedBlocks = (List.range' 1 3).map FourNodes.rowBlock := by
  have h := catch_up FourNodes.second FourNodes.rowBlock 6 (by decide) (follows_second 6) [3, 6, 1, 5, 2, 4] (by decide)
  exact ⟨h.1, h.2.2.1⟩

end HotStuff

end Bamboo
