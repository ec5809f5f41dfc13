import Bamboo.Streamlet.Shape

/-!
# Votes for longest chains

The notarized chain is meant to be indexed by the height of its blocks, and the voting rule asks for a parent
in its last level.  But each notarized block gets a level of its own, also when it forks off below the top.

* `height`: the height of a notarized block;
* `Longest`: the id of a notarized block of maximal height;
* `VotesForLongest`: at every moment of a run, the voting rule accepts exactly the extensions of longest chains;
* `votes_for_longest_iff`: this is so exactly if the notarized blocks form one chain;
* `fork_is_not_voted_for`: a run with a fork.
-/

namespace Bamboo

namespace Streamlet

open Prog

variable {chain : List (List Block)} {b x : Block} {older : List Block} {id : ℕ} {s t : Streamlet}

/-- The height of the block with an id in a list of notarized blocks, the last one first: one more than the
height of its parent among the blocks before it, which is 0 if there is none. -/
def heightOf : List Block → ℕ → ℕ
  | [], _ => 0
  | b :: older, id => if b.id = id then heightOf older b.prevID + 1 else heightOf older id

/-- The height of a notarized block. -/
def height (chain : List (List Block)) (id : ℕ) : ℕ := heightOf chain.flatten.reverse id

/-- The id of a notarized block of maximal height. -/
def Longest (chain : List (List Block)) (id : ℕ) : Prop :=
  InChain chain id ∧ ∀ l ∈ chain, ∀ a ∈ l, height chain a.id ≤ height chain id

instance (chain : List (List Block)) (id : ℕ) : Decidable (Longest chain id) :=
  inferInstanceAs (Decidable ((∃ l ∈ chain, ∃ b ∈ l, b.id = id) ∧ _))

/-- At every moment, with as much of the chain as there is then, the voting rule returns `true` for a block
above view 2 exactly if its parent is a notarized block of maximal height. -/
def VotesForLongest (chain : List (List Block)) : Prop :=
  ∀ t : Streamlet, t.notarizedChain <+: chain → ∀ b : Block, 2 < b.view →
    ((∃ t', votingRule b t = .ok true t') ↔ Longest t.notarizedChain b.prevID)

/-- Each notarized block but the first extends the one that was notarized before it. -/
def OneChain (chain : List (List Block)) : Prop := chain.IsChain fun l m => ∀ x ∈ l, ∀ b ∈ m, b.prevID = x.id

instance (chain : List (List Block)) : Decidable (OneChain chain) :=
  inferInstanceAs (Decidable (List.IsChain _ _))

/-! ### Heights -/

theorem heightOf_le (bs : List Block) (id : ℕ) : heightOf bs id ≤ bs.length := by
  induction bs generalizing id with
  | nil => simp [heightOf]
  | cons b older ih =>
    simp only [heightOf, List.length_cons]
    split_ifs
    · have := ih b.prevID
      omega
    · have := ih id
      omega

/-- Only the last block can be as high as the chain is long. -/
theorem heightOf_lt (h : b.id ≠ id) : heightOf (b :: older) id < (b :: older).length := by
  have := heightOf_le older id
  simp only [heightOf, if_neg h, List.length_cons]
  omega

/-- In a row of blocks, each on the one before, the last one is as high as the row is long. -/
theorem heightOf_row {bs : List Block} (h : (b :: bs).IsChain fun c a => c.prevID = a.id) :
    heightOf (b :: bs) b.id = (b :: bs).length := by
  induction bs generalizing b with
  | nil => simp [heightOf]
  | cons a older ih =>
    rw [List.isChain_cons_cons] at h
    have := ih h.2
    simp only [heightOf, if_true, h.1, List.length_cons] at this ⊢
    omega

/-! ### The voting rule -/

/-- Above view 2 the voting rule returns `true` for the children of the block in the last level. -/
theorem votingRule_iff (h : t.notarizedChain = chain ++ [[x]]) (h2 : 2 < b.view) :
    (∃ t', votingRule b t = .ok true t') ↔ b.prevID = x.id := by
  have hk : (t.notarizedChain.length : ℤ) - 1 = (chain.length : ℕ) := by
    simp [h]
  have hx : t.notarizedChain[chain.length]? = some [x] := by
    simp [h]
  have heq : votingRule b t = .ok (decide (b.prevID = x.id))
      (looked t [.index (t.notarizedChain.length - 1) t.notarizedChain.length]) := by
    unfold votingRule
    rw [get_bind_apply, if_neg (by omega), bind_apply_ok (index_eq hk hx)]
    simp [pure, EStateM.pure]
  rw [heq]
  simp

/-- In an empty chain there is no level to read. -/
theorem votingRule_empty (h : t.notarizedChain = []) (h2 : 2 < b.view) : ¬ ∃ t', votingRule b t = .ok true t' := by
  rintro ⟨t', hr⟩
  unfold votingRule index at hr
  rw [get_bind_apply, if_neg (by omega)] at hr
  simp only [h] at hr
  cases hr

/-! ### One block to a level -/

/-- The chain with one block to a level. -/
def levels (bs : List Block) : List (List Block) := bs.map fun b => [b]

theorem exists_levels (h : ∀ l ∈ chain, ∃ b, l = [b]) : ∃ bs, chain = levels bs := by
  induction chain with
  | nil => exact ⟨[], rfl⟩
  | cons l rest ih =>
    obtain ⟨b, rfl⟩ := h l List.mem_cons_self
    obtain ⟨bs, rfl⟩ := ih fun l hl => h l (List.mem_cons_of_mem _ hl)
    exact ⟨b :: bs, rfl⟩

variable {bs : List Block}

theorem mem_levels : [b] ∈ levels bs ↔ b ∈ bs := by
  simp [levels]

theorem levels_concat (bs : List Block) (b : Block) : levels (bs ++ [b]) = levels bs ++ [[b]] := by
  simp [levels]

theorem flatten_levels (bs : List Block) : (levels bs).flatten = bs := by
  induction bs with
  | nil => rfl
  | cons b bs ih => simpa [levels] using ih

theorem longest_levels : Longest (levels bs) id ↔
    (∃ b ∈ bs, b.id = id) ∧ ∀ a ∈ bs, heightOf bs.reverse a.id ≤ heightOf bs.reverse id := by
  simp only [Longest, InChain, height, flatten_levels]
  simp [levels]

theorem oneChain_levels : OneChain (levels bs) ↔ bs.IsChain fun x b => b.prevID = x.id := by
  simp [OneChain, levels, List.isChain_map]

/-- In one chain the last block is as high as the chain is long. -/
theorem OneChain.heightOf_last (h : OneChain (levels (bs ++ [x]))) :
    heightOf (x :: bs.reverse) x.id = (x :: bs.reverse).length := by
  refine heightOf_row ?_
  rw [show x :: bs.reverse = (bs ++ [x]).reverse by simp, List.isChain_reverse]
  exact oneChain_levels.1 h

/-- It is the only one of maximal height. -/
theorem OneChain.longest_iff (h : OneChain (levels (bs ++ [x]))) :
    Longest (levels (bs ++ [x])) id ↔ id = x.id := by
  have hrev : (bs ++ [x]).reverse = x :: bs.reverse := by
    simp
  have hrow := h.heightOf_last
  rw [longest_levels, hrev]
  constructor
  · rintro ⟨-, hmax⟩
    by_contra hne
    have hx := hmax x (by simp)
    have hlt : heightOf (x :: bs.reverse) id < (x :: bs.reverse).length := heightOf_lt (Ne.symm hne)
    omega
  · rintro rfl
    refine ⟨⟨x, by simp, rfl⟩, fun a _ => ?_⟩
    rw [hrow]
    exact heightOf_le _ _

/-- A block that forks off one chain leaves the block before it at the top. -/
theorem OneChain.longest_below_fork (h : OneChain (levels (bs ++ [x]))) (hfork : b.prevID ≠ x.id) (hid : x.id ≠ b.id) :
    Longest (levels (bs ++ [x] ++ [b])) x.id := by
  have hrev : (bs ++ [x] ++ [b]).reverse = b :: x :: bs.reverse := by
    simp
  have htop : heightOf (b :: x :: bs.reverse) x.id = (x :: bs.reverse).length := by
    rw [heightOf, if_neg (Ne.symm hid), h.heightOf_last]
  rw [longest_levels, hrev, htop]
  refine ⟨⟨x, by simp, rfl⟩, fun a _ => ?_⟩
  rw [heightOf]
  split_ifs
  · exact heightOf_lt (Ne.symm hfork)
  · exact heightOf_le _ _

/-! ### The two directions -/

theorem OneChain.votesForLongest (h1 : ∀ l ∈ chain, ∃ b, l = [b]) (h : OneChain chain) :
    VotesForLongest chain := by
  rintro t ⟨later, rfl⟩ b h2
  obtain ⟨bs, hbs⟩ := exists_levels fun l hl => h1 l (List.mem_append_left later hl)
  have h : OneChain t.notarizedChain := List.IsChain.left_of_append h
  rw [hbs] at h ⊢
  rcases List.eq_nil_or_concat bs with rfl | ⟨bs, x, rfl⟩
  · refine iff_of_false (votingRule_empty hbs h2) ?_
    rintro ⟨⟨l, hl, -⟩, -⟩
    cases hl
  · rw [List.concat_eq_append] at h hbs ⊢
    rw [h.longest_iff, votingRule_iff (hbs.trans (levels_concat bs x)) h2]

/-- By induction on the levels: the first block that forks off is not voted for by the voting rule's own
measure. -/
theorem VotesForLongest.oneChain (hid : bs.Pairwise fun a b => a.id ≠ b.id)
    (h : VotesForLongest (levels bs)) : OneChain (levels bs) := by
  induction bs using List.reverseRecOn with
  | nil => exact .nil
  | append_singleton bs b ih =>
    rw [List.pairwise_append] at hid
    have hpre : levels bs <+: levels (bs ++ [b]) := ⟨[[b]], (levels_concat bs b).symm⟩
    have hone := ih hid.1 fun t ht => h t (ht.trans hpre)
    rcases List.eq_nil_or_concat bs with rfl | ⟨bs, x, rfl⟩
    · exact .singleton _
    rw [List.concat_eq_append] at hone hid h ⊢
    have hlink : b.prevID = x.id := by
      by_contra hfork
      have hne : x.id ≠ b.id := hid.2.2 x (by simp) b (by simp)
      have hlong := hone.longest_below_fork hfork hne
      -- a block of view 3 on `x`, at the moment when `b` has been notarized
      let t : Streamlet := { Streamlet.new 0 with notarizedChain := levels (bs ++ [x] ++ [b]) }
      have hvote := (h t (List.prefix_refl _) { x with view := 3, prevID := x.id } (by simp)).2 hlong
      rw [votingRule_iff (t := t) (levels_concat (bs ++ [x]) b) (by simp)] at hvote
      exact hne hvote
    rw [levels_concat, OneChain, List.isChain_append]
    refine ⟨hone, .singleton _, fun l hl m hm => ?_⟩
    rw [levels_concat, List.getLast?_concat] at hl
    cases hl
    cases hm
    simpa using hlink

/-- Valid certificates notarize no id twice. -/
theorem Climbing.ids_differ (h : Climbing s) (hv : Valid s) (hbs : s.notarizedChain = levels bs) :
    bs.Pairwise fun a b => a.id ≠ b.id := by
  have hinc := h.shaped.increasing
  rw [hbs, levels, List.pairwise_map] at hinc
  refine hinc.imp_of_mem fun {a b} ha hb hlt heq => ?_
  obtain ⟨chain, hacc⟩ := (h.certified [a] (hbs ▸ mem_levels.2 ha) a (List.mem_singleton_self a)).accepted
  obtain ⟨chain', hacc'⟩ := (h.certified [b] (hbs ▸ mem_levels.2 hb) b (List.mem_singleton_self b)).accepted
  obtain ⟨qc, hqc, hid⟩ := (h.certified [b] (hbs ▸ mem_levels.2 hb) b (List.mem_singleton_self b)).certificate
  have hva := hv qc a chain hqc hacc (heq.trans hid.symm)
  have hvb := hv qc b chain' hqc hacc' hid.symm
  have := hlt a (List.mem_singleton_self a) b (List.mem_singleton_self b)
  omega

/-- **Votes for longest chains.**  In every run with valid certificates, the voting rule accepts at every
moment exactly the blocks above view 2 that extend a notarized block of maximal height, if and only if each
notarized block but the first extends the one that was notarized before it. -/
theorem votes_for_longest_iff (nd : Node) (depth : ℕ) (gs : List Given) (hv : Valid (feed nd depth gs)) :
    VotesForLongest (feed nd depth gs).notarizedChain ↔ OneChain (feed nd depth gs).notarizedChain := by
  have hc := climbing_feed nd depth gs hv
  obtain ⟨bs, hbs⟩ := exists_levels hc.shaped.single
  constructor
  · intro h
    rw [hbs] at h ⊢
    exact h.oneChain (hc.ids_differ hv hbs)
  · exact fun h => h.votesForLongest hc.shaped.single

theorem votes_for_longest_iff_inARow : VotesForLongest (feed FourNodes.second 9 inARow).notarizedChain :=
  (votes_for_longest_iff FourNodes.second 9 inARow (valid_of_test (by decide_cbv))).2 (by decide_cbv)

/-- **The top is left.**  With the blocks of views 2 and 3 both on that of view 1, both have height 2.  The
voting rule refuses a block of view 4 on that of view 2, because the other one was notarized later. -/
theorem fork_is_not_voted_for :
    Valid (feed FourNodes.second 9 forked) ∧ Longest (feed FourNodes.second 9 forked).notarizedChain 2 ∧
      (FourNodes.block 4 (FourNodes.certificate 2)).prevID = 2 ∧
      ∃ t', votingRule (FourNodes.block 4 (FourNodes.certificate 2)) (feed FourNodes.second 9 forked) =
        .ok false t' := by
  have hrun : passes (votingRule (FourNodes.block 4 (FourNodes.certificate 2))) (fun r _ => !r)
      (feed FourNodes.second 9 forked) = true := by
    decide_cbv
  obtain ⟨r, t', hr, hfalse⟩ := exists_ok_of_passes hrun
  obtain rfl : r = false := by simpa using hfalse
  exact ⟨valid_of_test (by decide_cbv), by decide_cbv, rfl, t', hr⟩

end Streamlet

end Bamboo
