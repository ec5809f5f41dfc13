import Bamboo.Streamlet.Shape

/-!
# Access to the notarized chain

`votingRule` reads the last level of the chain without asking whether there is one, and the loop of
`updateNotarizedChain` goes on below the first level when the chain has one or two levels and none of them
has the parent.  All other accesses are inside the bounds.

* `Guarded`: neither happens;
* `chain_access_in_range`: then every access is inside the bounds;
* `empty_chain_is_read`: a run of honest replicas in which one of them stops;
* `CleanSearch`, `search_clean_iff`: how a single search is meant to end, and when it does.
-/

namespace Bamboo

namespace Streamlet

/-- Whenever a block of view 3 or later was about to be stored, the replica had notarized a block; and
whenever it was about to notarize a block with one or two blocks notarized, the parent was one of these. -/
structure Guarded (trace : List Entry) : Prop where
  stored : ∀ b chain, .accepted b chain ∈ trace → 2 < b.view → chain ≠ []
  notarized : ∀ b chain, .notarizing b chain ∈ trace → chain ≠ [] → chain.length < 3 → InChain chain b.prevID

theorem Guarded.of_subset {trace trace' : List Entry} (h : Guarded trace') (hs : trace ⊆ trace') :
    Guarded trace where
  stored := fun b chain hm => h.stored b chain (hs hm)
  notarized := fun b chain hm => h.notarized b chain (hs hm)

/-- One small step. -/
theorem Act.inRange {nd : Node} {In : Msg → Prop} {s t : Streamlet} (h : Act nd In s t)
    (hg : Guarded t.trace) (hs : ∀ e ∈ s.trace, InRange e) : ∀ e ∈ t.trace, InRange e := by
  have happend : ∀ es, (∀ e ∈ es, InRange e) → ∀ e ∈ s.trace ++ es, InRange e :=
    fun es hes e he => (List.mem_append.1 he).elim (hs e) (hes e)
  cases h with
  | propose h hl hb hes =>
    refine happend _ fun e he => ?_
    rcases List.mem_append.1 he with he | he
    · exact (hes e he).2
    · rw [List.mem_singleton.1 he]
      trivial
  | look hes => exact happend _ fun e he => (hes e he).2
  | lookLast hb h2 =>
    refine happend _ fun e he => ?_
    rw [List.mem_singleton.1 he]
    have := List.length_pos_iff.2 (hg.stored _ _ (List.mem_append_left _ hb) h2)
    exact ⟨by omega, by omega⟩
  | lookBelow hb hne h3 hno =>
    exact absurd (hg.notarized _ _ (List.mem_append_left _ hb) hne h3) hno
  | timeout => exact hs
  | accept => exact happend _ fun e he => by rw [List.mem_singleton.1 he]; trivial
  | vote => exact happend _ fun e he => by rw [List.mem_singleton.1 he]; trivial
  | build => exact happend _ fun e he => by rw [List.mem_singleton.1 he]; trivial
  | found => exact happend _ fun e he => by rw [List.mem_singleton.1 he]; trivial
  | commit => exact happend _ fun e he => by rw [List.mem_singleton.1 he]; trivial
  | _ => exact hs

/-- A run in small steps. -/
theorem inRange_of_reachable {cf : Config} {members : List NodeID} {depth : ℕ} {w : NodeID → Streamlet}
    (hw : (streamletSteps cf members depth).Reachable w) (i : NodeID) (hg : Guarded (w i).trace) :
    ∀ e ∈ (w i).trace, InRange e := by
  refine hw.keeps (J := fun _ s => Guarded s.trace → ∀ e ∈ s.trace, InRange e) ?_ ?_ i hg
  · intro i _ e he
    cases he
  · intro i In s t ha ih hg
    exact Act.inRange ha hg (ih (hg.of_subset (Act.subset ha).2))

/-- **Access inside the bounds.**  In every run of honest replicas, a replica that has stored no block of
view 3 or later before it notarized one, and has notarized none of its second and third block without the
parent, has read its notarized chain inside the bounds only. -/
theorem chain_access_in_range (cf : Config) (members : List NodeID) (depth : ℕ)
    (net : NodeID → Net.Proc Streamlet) (hr : (streamletNet cf members depth).Reachable net) (i : NodeID)
    (hg : Guarded (net i).st.trace) (k : ℤ) (len : ℕ) (he : .index k len ∈ (net i).st.trace) :
    0 ≤ k ∧ k < len :=
  inRange_of_reachable (.of_reachable (R := streamletSteps cf members depth) hr) i hg _ he

/-- The next view event of a node, with nothing to propose. -/
def newView (i : NodeID) : Net.System.Sched NodeID Event := .fire i (.replica (.newView [] ⟨[]⟩))

/-- Node 1 proposes in views 1 and 2 with the votes of nodes 2 and 3, and in view 3. -/
def threeProposals : List (Net.System.Sched NodeID Event) :=
  [newView "1", .pass "1" 0 "2", .pass "1" 0 "3", .pass "2" 1 "1", .pass "3" 1 "1",
    newView "1", .pass "1" 3 "2", .pass "1" 3 "3", .pass "2" 3 "1", .pass "3" 3 "1",
    newView "1"]

/-- `Guarded` as a test. -/
def guarded (trace : List Entry) : Bool :=
  trace.all fun e => match e with
    | .accepted b chain => decide (b.view ≤ 2) || !chain.isEmpty
    | .notarizing b chain => chain.isEmpty || decide (3 ≤ chain.length) ||
        chain.any fun l => l.any fun x => decide (x.id = b.prevID)
    | _ => true

theorem guarded_of_test {trace : List Entry} (h : guarded trace = true) : Guarded trace where
  stored := by
    intro b chain hm h2 hn
    have ht := List.all_eq_true.1 h _ hm
    simp only [hn, List.isEmpty_nil, Bool.not_true, Bool.or_false, decide_eq_true_eq] at ht
    omega
  notarized := by
    intro b chain hm hne h3
    have ht := List.all_eq_true.1 h _ hm
    simp only [Bool.or_eq_true, List.isEmpty_iff, hne, false_or, decide_eq_true_eq, List.any_eq_true] at ht
    exact ht.resolve_left (by omega)

theorem chain_access_in_range_threeProposals :
    ∃ net, (streamletNet (FourNodes.config fun _ => "1") FourNodes.members 9).Reachable net ∧
      .index 1 2 ∈ (net "1").st.trace ∧ (0 : ℤ) ≤ 1 ∧ (1 : ℤ) < (2 : ℕ) := by
  obtain ⟨net, hr, htest⟩ :=
    (streamletNet (FourNodes.config fun _ => "1") FourNodes.members 9).exists_reachable threeProposals
      (fun net => guarded (net "1").st.trace && decide (.index 1 2 ∈ (net "1").st.trace)) (by decide_cbv)
  rw [Bool.and_eq_true, decide_eq_true_eq] at htest
  exact ⟨net, hr, htest.2,
    chain_access_in_range _ _ 9 net hr "1" (guarded_of_test htest.1) 1 2 htest.2⟩

/-- **A run that stops a replica.**  Node 4 gets the three blocks and none of the votes: it reads the level
before the first one of its empty chain. -/
theorem empty_chain_is_read :
    ∃ net, (streamletNet (FourNodes.config fun _ => "1") FourNodes.members 9).Reachable net ∧
      .index (-1) 0 ∈ (net "4").st.trace ∧ (net "4").up = false := by
  obtain ⟨net, hr, htest⟩ :=
    (streamletNet (FourNodes.config fun _ => "1") FourNodes.members 9).exists_reachable
      (threeProposals ++ [.pass "1" 0 "4", .pass "1" 3 "4", .pass "1" 6 "4"])
      (fun net => decide (.index (-1) 0 ∈ (net "4").st.trace) && !(net "4").up) (by decide_cbv)
  rw [Bool.and_eq_true, decide_eq_true_eq, Bool.not_eq_true'] at htest
  exact ⟨net, hr, htest.1, htest.2⟩

/-! ### One search

The loop of `updateNotarizedChain` goes on while `i >= 0 || i >= height-3`, so below three levels the second
bound lets the index fall under the first one. -/

/-- How `updateNotarizedChain` is meant to end for the certificate of the stored block `b`.  Only levels of the
chain are read.  Where there are levels and none of them has the parent, it returns an error, with the chain as
before and the certificate under the parent's id; otherwise it adds a level with this block alone. -/
structure CleanSearch (qc : QC) (b : Block) (s : Streamlet) (ok : Bool) (t : Streamlet) : Prop where
  reads : ∃ es, t.trace = s.trace ++ es ∧
    ∀ (i : ℤ) (len : ℕ), .index i len ∈ es → len = s.notarizedChain.length ∧ 0 ≤ i ∧ i < len
  parked : s.notarizedChain ≠ [] → ¬InChain s.notarizedChain b.prevID →
    ok = false ∧ t.notarizedChain = s.notarizedChain ∧
      t.bufferedNotarizedBlock = s.bufferedNotarizedBlock.insert b.prevID qc
  appended : s.notarizedChain = [] ∨ InChain s.notarizedChain b.prevID →
    ok = true ∧ t.notarizedChain = s.notarizedChain ++ [[b]]

/-- The accesses of a search that does not go below the first level. -/
theorem Reads.search {height : ℕ} {es : List Entry} (h : Reads height es) {b : Block}
    {chain : List (List Block)} {i : ℤ} {len : ℕ} (he : .index i len ∈ [.notarizing b chain] ++ es) :
    len = height ∧ 0 ≤ i ∧ i < len := by
  rcases List.mem_append.1 he with he | he
  · cases List.mem_singleton.1 he
  · obtain ⟨k, hk, heq⟩ := h _ he
    cases heq
    exact ⟨rfl, by omega, by omega⟩

/-- **A search ends cleanly** if and only if the chain is empty, has at least three levels, or has the parent
on one of them. -/
theorem search_clean_iff (s : Streamlet) (qc : QC) (b : Block)
    (hst : s.bc.getBlockByID qc.blockID = some b) :
    (∃ ok t, updateNotarizedChain qc s = .ok ok t ∧ CleanSearch qc b s ok t) ↔
      s.notarizedChain = [] ∨ 3 ≤ s.notarizedChain.length ∨ InChain s.notarizedChain b.prevID := by
  obtain ⟨es, hes, heq⟩ := updateNotarizedChain_eq hst
  by_cases hpar : s.notarizedChain = [] ∨ InChain s.notarizedChain b.prevID
  · rw [if_pos hpar] at heq
    refine iff_of_true ⟨true, _, heq, ?_⟩ (hpar.imp_right Or.inr)
    exact {
      reads := ⟨_, rfl, fun _ _ he => hes.search he⟩
      parked := fun hne hno => absurd hpar (not_or.2 ⟨hne, hno⟩)
      appended := fun _ => ⟨rfl, rfl⟩ }
  rw [if_neg hpar] at heq
  obtain ⟨hne, hno⟩ := not_or.1 hpar
  by_cases h3 : 3 ≤ s.notarizedChain.length
  · rw [if_pos h3] at heq
    refine iff_of_true ⟨false, _, heq, ?_⟩ (Or.inr (Or.inl h3))
    exact {
      reads := ⟨_, rfl, fun _ _ he => hes.search he⟩
      parked := fun _ _ => ⟨rfl, rfl, rfl⟩
      appended := fun h => absurd h hpar }
  · -- the search goes on below the first level and does not return
    rw [if_neg h3] at heq
    refine iff_of_false ?_ (by simp [hne, h3, hno])
    rintro ⟨ok, t, hok, -⟩
    rw [heq] at hok
    cases hok

/-- The blocks of views 1 to 3 in a row are notarized, those of views 4 and 5 only stored. -/
def twoBehind : List Given :=
  inARow ++ [.msg (.block (FourNodes.block 4 (FourNodes.certificate 3))),
    .msg (.block (FourNodes.block 5 (FourNodes.certificate 4)))]

theorem search_clean_iff_twoBehind :
    ((feed FourNodes.second 9 twoBehind).notarizedChain.map fun l => l.map Block.id) = [[1], [2], [3]] ∧
      ∃ ok t, updateNotarizedChain (FourNodes.certificate 5) (feed FourNodes.second 9 twoBehind) = .ok ok t ∧
        CleanSearch (FourNodes.certificate 5) (FourNodes.block 5 (FourNodes.certificate 4))
          (feed FourNodes.second 9 twoBehind) ok t := by
  have hrun : (fun s : Streamlet =>
      decide ((s.notarizedChain.map fun l => l.map Block.id) = [[1], [2], [3]]) &&
      decide (s.bc.getBlockByID 5 = some (FourNodes.block 5 (FourNodes.certificate 4))))
      (feed FourNodes.second 9 twoBehind) = true := by
    decide_cbv
  obtain ⟨hids, hst⟩ := Bool.and_eq_true_iff.1 hrun
  have hids := of_decide_eq_true hids
  have hlen : 3 ≤ (feed FourNodes.second 9 twoBehind).notarizedChain.length := by
    have := congrArg List.length hids
    rw [List.length_map] at this
    exact this.ge
  refine ⟨hids, ?_⟩
  exact (search_clean_iff _ (FourNodes.certificate 5) _ (of_decide_eq_true hst)).2 (Or.inr (Or.inl hlen))

/-- The block of view 1 is notarized, those of views 2 and 3 only stored. -/
def oneNotarized : List Given :=
  [.msg (.block (FourNodes.block 1 .initial)), .certificate (FourNodes.certificate 1),
    .msg (.block (FourNodes.block 2 (FourNodes.certificate 1))),
    .msg (.block (FourNodes.block 3 (FourNodes.certificate 2)))]

/-- **A search below the first level.**  One block is notarized, and the certificate of its grandchild comes
before that of its child: the search reads the level before the first one, and the replica stops. -/
theorem missing_parent_stops_search :
    (feed FourNodes.second 9 oneNotarized).notarizedChain = [[FourNodes.block 1 .initial]] ∧
      (feed FourNodes.second 9 oneNotarized).bc.getBlockByID (FourNodes.certificate 3).blockID =
        some (FourNodes.block 3 (FourNodes.certificate 2)) ∧
      (∃ t, updateNotarizedChain (FourNodes.certificate 3) (feed FourNodes.second 9 oneNotarized) =
        .error .indexOutOfRange t ∧ .index (-1) 1 ∈ t.trace) ∧
      ¬∃ ok t,
        updateNotarizedChain (FourNodes.certificate 3) (feed FourNodes.second 9 oneNotarized) = .ok ok t ∧
        CleanSearch (FourNodes.certificate 3) (FourNodes.block 3 (FourNodes.certificate 2))
          (feed FourNodes.second 9 oneNotarized) ok t := by
  have hrun : (fun s : Streamlet => decide (s.notarizedChain = [[FourNodes.block 1 .initial]]) &&
      decide (s.bc.getBlockByID 3 = some (FourNodes.block 3 (FourNodes.certificate 2))))
      (feed FourNodes.second 9 oneNotarized) = true := by
    decide_cbv
  obtain ⟨hchain, hst⟩ := Bool.and_eq_true_iff.1 hrun
  have hchain := of_decide_eq_true hchain
  have hst : (feed FourNodes.second 9 oneNotarized).bc.getBlockByID (FourNodes.certificate 3).blockID =
      some (FourNodes.block 3 (FourNodes.certificate 2)) := of_decide_eq_true hst
  obtain ⟨es, -, heq⟩ := updateNotarizedChain_eq hst
  rw [hchain, if_neg (by decide), if_neg (by decide)] at heq
  refine ⟨hchain, hst, ⟨_, heq, by simp [looked]⟩, ?_⟩
  rintro ⟨ok, t, hok, -⟩
  rw [heq] at hok
  cases hok

end Streamlet

end Bamboo
