import Bamboo.FourNodes
import Bamboo.Streamlet.Handlers

/-!
# The shape of the notarized chain

A replica that gets blocks, votes, timeouts and certificates in any order, where each certificate has the view
of its block, keeps in its notarized chain one block to a level, in increasing views, each on a block of an
earlier level.

* `feed`: the states of such a replica;
* `Valid`: the certificates it has come across have the views of their blocks;
* `Shaped`: the shape of the chain;
* `Climbing`, `Act.climbing`: what one small step preserves, together with the current view, which stays above
  the views of the chain;
* `chain_shaped`: so the chain of every state is shaped;
* `commits_three_chain`: where neighbours in the chain are parent and child, `commitRule` finds three-chains,
  and `childless_block_committed`, where they are not.
-/

namespace Bamboo

namespace Streamlet

open Prog

variable {nd : Node} {In : Msg → Prop} {s t : Streamlet} {depth : ℕ}

/-- What a replica can be given. -/
inductive Given
  | msg (m : Msg)
  | event (e : Event)
  | certificate (qc : QC)

/-- The state after something is given to the replica.  A certificate that is handed over is noted in the
trace, like one that the replica has built. -/
def give (nd : Node) (depth : ℕ) (s : Streamlet) : Given → Streamlet
  | .msg m => final ((safety nd depth).handleMsg m s)
  | .event e => final (handleEvent nd depth e s)
  | .certificate qc => final (processCertificate nd depth qc (looked s [.built qc]))

/-- The state of a replica after all it was given, in this order. -/
def feed (nd : Node) (depth : ℕ) (gs : List Given) : Streamlet := gs.foldl (give nd depth) (Streamlet.new nd.n)

/-- Each certificate that the replica has come across has the view of the blocks it stored under its id. -/
def Valid (s : Streamlet) : Prop :=
  ∀ qc b chain, .built qc ∈ s.trace → .accepted b chain ∈ s.trace → b.id = qc.blockID → b.view = qc.view

theorem Valid.of_subset (h : Valid t) (hs : s.trace ⊆ t.trace) : Valid s :=
  fun qc b chain hq hb hid => h qc b chain (hs hq) (hs hb) hid

/-- One block to a level, in increasing views, and each block but the first on a block of an earlier level. -/
structure Shaped (chain : List (List Block)) : Prop where
  single : ∀ l ∈ chain, ∃ b, l = [b]
  increasing : chain.Pairwise fun l m => ∀ a ∈ l, ∀ b ∈ m, a.view < b.view
  parent : ∀ earlier b, earlier ++ [[b]] <+: chain → earlier ≠ [] → ∃ a, [a] ∈ earlier ∧ a.id = b.prevID

theorem shaped_nil : Shaped [] where
  single := by simp
  increasing := .nil
  parent := by simp

theorem Shaped.of_prefix {chain front : List (List Block)} (h : Shaped chain) (hp : front <+: chain) :
    Shaped front where
  single := fun l hl => h.single l (hp.subset hl)
  increasing := h.increasing.sublist hp.sublist
  parent := fun earlier b hpre => h.parent earlier b (hpre.trans hp)

/-- A block of a later view is added, on one of the blocks. -/
theorem Shaped.concat {chain : List (List Block)} {b : Block} (h : Shaped chain)
    (hv : ∀ l ∈ chain, ∀ a ∈ l, a.view < b.view) (hp : chain = [] ∨ InChain chain b.prevID) :
    Shaped (chain ++ [[b]]) where
  single := by
    intro l hl
    rcases List.mem_append.1 hl with hl | hl
    · exact h.single l hl
    · exact ⟨b, List.mem_singleton.1 hl⟩
  increasing := by
    rw [List.pairwise_append]
    refine ⟨h.increasing, List.pairwise_singleton _ _, ?_⟩
    intro l hl m hm a ha c hc
    simp only [List.mem_singleton] at hm
    subst hm
    rw [List.mem_singleton.1 hc]
    exact hv l hl a ha
  parent := by
    intro earlier c hpre hne
    rcases List.prefix_concat_iff.1 hpre with heq | hpre
    · -- the block just added
      obtain ⟨rfl, hbc⟩ := List.append_inj heq (by simpa using congrArg List.length heq)
      simp only [List.cons.injEq, and_true] at hbc
      subst hbc
      obtain ⟨l, hl, a, ha, hid⟩ := hp.resolve_left hne
      obtain ⟨a', rfl⟩ := h.single l hl
      rw [List.mem_singleton.1 ha] at hid
      exact ⟨a', hl, hid⟩
    · exact h.parent earlier c hpre hne

/-! ### Small steps -/

theorem Act.curView_le (h : Act nd In s t) : s.pm.curView ≤ t.pm.curView := by
  cases h with
  | advance => exact s.pm.curView_le_advanceView _
  | kickOff => exact s.pm.curView_le_advanceView _
  | notarize => exact s.pm.curView_le_advanceView _
  | @timeout tmo =>
    obtain ⟨tcl, hpm, -⟩ := s.pm.processRemoteTmo_cases tmo
    simp [tmoState, hpm]
  | _ => exact le_refl _

/-- A block is stored when it is accepted. -/
theorem Act.accepted (h : Act nd In s t)
    (hs : ∀ x b, s.bc.forrest.getVertex x = some b → ∃ chain, .accepted b chain ∈ s.trace) {x : ℕ} {b : Block}
    (hx : t.bc.forrest.getVertex x = some b) : ∃ chain, .accepted b chain ∈ t.trace := by
  have hold : s.bc.forrest.getVertex x = some b → ∃ chain, .accepted b chain ∈ t.trace := by
    intro hx
    obtain ⟨chain, hc⟩ := hs x b hx
    exact ⟨chain, h.subset.2 hc⟩
  cases h with
  | @accept b' f hb hf =>
    rw [hf.stored] at hx
    split_ifs at hx with hcond
    · cases hx
      exact ⟨s.notarizedChain, by simp⟩
    · exact hold hx
  | commit _ _ _ hc => exact hold (hc.stored x b hx)
  | commitFailed hd =>
    rw [hd.forrest] at hx
    exact hold hx
  | _ => exact hold hx

/-- The replica has accepted the block and come across a certificate for it. -/
structure Certified (trace : List Entry) (b : Block) : Prop where
  certificate : ∃ qc, .built qc ∈ trace ∧ qc.blockID = b.id
  accepted : ∃ chain, .accepted b chain ∈ trace

theorem Certified.of_subset {trace trace' : List Entry} {b : Block} (h : Certified trace b) (hs : trace ⊆ trace') :
    Certified trace' b where
  certificate := by
    obtain ⟨qc, hq, hid⟩ := h.certificate
    exact ⟨qc, hs hq, hid⟩
  accepted := by
    obtain ⟨chain, hc⟩ := h.accepted
    exact ⟨chain, hs hc⟩

/-- The invariant: the chain is shaped and stays below the current view, its blocks are certified, and stored
blocks were accepted. -/
structure Climbing (s : Streamlet) : Prop where
  accepted : ∀ x b, s.bc.forrest.getVertex x = some b → ∃ chain, .accepted b chain ∈ s.trace
  certified : ∀ l ∈ s.notarizedChain, ∀ b ∈ l, Certified s.trace b
  below : ∀ l ∈ s.notarizedChain, ∀ b ∈ l, b.view < s.pm.curView
  shaped : Shaped s.notarizedChain

theorem climbing_new (n : ℕ) : Climbing (Streamlet.new n) := by
  refine ⟨fun x b hx => ?_, by simp [Streamlet.new], by simp [Streamlet.new], shaped_nil⟩
  simp [Streamlet.new, BlockChain.new, LevelledForest.new, LevelledForest.getVertex] at hx

/-- **One small step.** -/
theorem Act.climbing (h : Act nd In s t) (hok : Ok nd In s) (hv : Valid t) (hs : Climbing s) : Climbing t := by
  have hacc : ∀ x b, t.bc.forrest.getVertex x = some b → ∃ chain, .accepted b chain ∈ t.trace :=
    fun x b hx => h.accepted hs.accepted hx
  have hle := h.curView_le
  have hsub := h.subset.2
  rcases h.chain_cases with hc | ⟨qc, b, hk, hb, hcur, hp, rfl⟩
  · refine ⟨hacc, fun l hl b hb => ?_, fun l hl b hb => ?_, hc ▸ hs.shaped⟩
    · rw [hc] at hl
      exact (hs.certified l hl b hb).of_subset hsub
    · rw [hc] at hl
      exact lt_of_lt_of_le (hs.below l hl b hb) hle
  · -- the block has the view of its certificate, which has not been left
    obtain ⟨chain, hch⟩ := hs.accepted _ b hb
    have hid := (hok.stored _ b hb).1
    have hview : b.view = qc.view := hv qc b chain hk hch hid
    have habove : ∀ l ∈ s.notarizedChain, ∀ a ∈ l, a.view < b.view := by
      intro l hl a ha
      have := hs.below l hl a ha
      omega
    have hpm := Pacemaker.advanceView_of_le hcur
    refine ⟨hacc, fun l hl a ha => ?_, fun l hl a ha => ?_, hs.shaped.concat habove hp⟩
    · rcases List.mem_append.1 hl with hl | hl
      · exact hs.certified l hl a ha
      · rw [List.mem_singleton] at hl
        subst hl
        rw [List.mem_singleton] at ha
        subst ha
        exact ⟨⟨qc, hk, hid.symm⟩, chain, hch⟩
    · show a.view < (s.pm.advanceView qc.view).curView
      rw [hpm]
      dsimp only
      rcases List.mem_append.1 hl with hl | hl
      · have := habove l hl a ha
        omega
      · rw [List.mem_singleton] at hl
        subst hl
        rw [List.mem_singleton] at ha
        subst ha
        omega

/-! ### Runs -/

/-- A handed-in certificate can be noted. -/
theorem Ok.handed (h : Ok nd In s) (qc : QC) : Ok nd In (looked s [.built qc]) where
  forrest := h.forrest
  quorum := h.quorum
  total := h.total
  levels := h.levels
  bufferedQC := fun id q hq => List.mem_append_left _ (h.bufferedQC id q hq)
  bufferedNotarized := fun id q hq => List.mem_append_left _ (h.bufferedNotarized id q hq)
  bufferedBlock := h.bufferedBlock
  stored := h.stored

theorem handed_known (s : Streamlet) (qc : QC) : Known (looked s [.built qc]) qc :=
  List.mem_append_right _ (List.mem_singleton_self _)

/-- What the small steps preserve, and the note of a certificate, holds in every state. -/
theorem feed_induction {J : Streamlet → Prop} (hnew : J (Streamlet.new nd.n))
    (hact : ∀ {s t}, Act nd (fun _ => True) s t → Ok nd (fun _ => True) s → J s → J t)
    (hnote : ∀ {s} qc, J s → J (looked s [.built qc])) (gs : List Given) : J (feed nd depth gs) := by
  have hacts : ∀ {s t}, Relation.ReflTransGen (Act nd fun _ => True) s t → Ok nd (fun _ => True) s → J s →
      Ok nd (fun _ => True) t ∧ J t := by
    intro s t hst hok hs
    induction hst with
    | refl => exact ⟨hok, hs⟩
    | tail _ ha ih => exact ⟨ih.1.act ha, hact ha ih.1 ih.2⟩
  suffices Ok nd (fun _ => True) (feed nd depth gs) ∧ J (feed nd depth gs) from this.2
  induction gs using List.reverseRecOn with
  | nil => exact ⟨ok_new nd _, hnew⟩
  | append_singleton gs g ih =>
    have hfeed : feed nd depth (gs ++ [g]) = give nd depth (feed nd depth gs) g := by
      simp [feed]
    rw [hfeed]
    cases g with
    | msg m => exact hacts (handleMsg_steps ih.1 depth trivial).final ih.1 ih.2
    | event e => exact hacts (handleEvent_steps ih.1 depth e).final ih.1 ih.2
    | certificate qc =>
      have hok := ih.1.handed qc
      exact hacts ((process_steps nd _ depth).2.2 hok (handed_known _ qc)).final hok (hnote qc ih.2)

theorem climbing_feed (nd : Node) (depth : ℕ) (gs : List Given) :
    Valid (feed nd depth gs) → Climbing (feed nd depth gs) := by
  refine feed_induction (J := fun s => Valid s → Climbing s) ?_ ?_ ?_ gs
  · intro _
    exact climbing_new nd.n
  · intro s t ha hok hs hv
    exact ha.climbing hok hv (hs (hv.of_subset ha.subset.2))
  · intro s qc hs hv
    have h := hs (hv.of_subset (List.subset_append_left _ _))
    refine ⟨fun x b hx => ?_, fun l hl b hb => ?_, h.below, h.shaped⟩
    · obtain ⟨chain, hc⟩ := h.accepted x b hx
      exact ⟨chain, List.mem_append_left _ hc⟩
    · exact (h.certified l hl b hb).of_subset (List.subset_append_left _ _)

/-- **The shape of the notarized chain.**  Whatever a replica is sent and handed, in any order, and whether
or not its handlers return: if the certificates have the views of their blocks, each level of the notarized
chain has one block, the views increase from level to level, and the parent of each block but the first is the
block of an earlier level. -/
theorem chain_shaped (nd : Node) (depth : ℕ) (gs : List Given) (hv : Valid (feed nd depth gs)) :
    Shaped (feed nd depth gs).notarizedChain := (climbing_feed nd depth gs hv).shaped

/-- `Valid` as a test. -/
def valid (trace : List Entry) : Bool :=
  trace.all fun e => trace.all fun e' => match e, e' with
    | .built qc, .accepted b _ => decide (b.id = qc.blockID → b.view = qc.view)
    | _, _ => true

theorem valid_of_test (h : valid s.trace = true) : Valid s := by
  intro qc b chain hq hb
  have ht := List.all_eq_true.1 (List.all_eq_true.1 h _ hq) _ hb
  exact of_decide_eq_true ht

/-- Node 1's blocks of views 1 to 3, with certificates for them; the third is on the first. -/
def forked : List Given :=
  [.msg (.block (FourNodes.block 1 .initial)), .certificate (FourNodes.certificate 1),
    .msg (.block (FourNodes.block 2 (FourNodes.certificate 1))),
    .msg (.block (FourNodes.block 3 (FourNodes.certificate 1))),
    .certificate (FourNodes.certificate 2), .certificate (FourNodes.certificate 3)]

/-- The replica commits the block of view 2, which has no child. -/
theorem forked_test : (fun s : Streamlet => valid s.trace &&
    decide ((s.notarizedChain.map fun l => l.map Block.view) = [[1], [2], [3]]) &&
    passes commitRule (fun r _ => decide (∃ g ∈ r, g ∈ s.committedBlocks ∧
      ∀ l ∈ s.notarizedChain, ∀ c ∈ l, c.prevID ≠ g.id)) s) (feed FourNodes.second 9 forked) = true := by
  decide_cbv

theorem chain_shaped_forked :
    ((feed FourNodes.second 9 forked).notarizedChain.map fun l => l.map Block.view) = [[1], [2], [3]] ∧
      Shaped (feed FourNodes.second 9 forked).notarizedChain := by
  obtain ⟨hvalid, -⟩ := Bool.and_eq_true_iff.1 forked_test
  obtain ⟨hvalid, hviews⟩ := Bool.and_eq_true_iff.1 hvalid
  exact ⟨of_decide_eq_true hviews, chain_shaped FourNodes.second 9 forked (valid_of_test hvalid)⟩

/-! ### Three-chains

The chain lists the notarized blocks in the order of time, and the commit rule takes neighbours in it for
parent and child. -/

/-- A block that was notarized right after one of the view before extends that one. -/
def Linked (chain : List (List Block)) : Prop :=
  chain.IsChain fun l m => ∀ x ∈ l, ∀ b ∈ m, x.view + 1 = b.view → b.prevID = x.id

instance (chain : List (List Block)) : Decidable (Linked chain) := inferInstanceAs (Decidable (List.IsChain _ _))

/-- **Commits of three-chains.**  Take any run in which each block that is notarized right after a block of
the view before extends that one.  At any moment of it, with as much of the chain as there is then, the block
that `commitRule` returns has a notarized parent of the view before and a notarized child of the view after. -/
theorem commits_three_chain (nd : Node) (depth : ℕ) (gs : List Given)
    (hlink : Linked (feed nd depth gs).notarizedChain) (t t' : Streamlet)
    (ht : t.notarizedChain <+: (feed nd depth gs).notarizedChain) (g : Block)
    (hr : commitRule t = .ok (some g) t') :
    ∃ a c, [a] ∈ t.notarizedChain ∧ [c] ∈ t.notarizedChain ∧ g.prevID = a.id ∧ c.prevID = g.id ∧
      a.view + 1 = g.view ∧ g.view + 1 = c.view := by
  obtain ⟨r, es, heq, -, hg⟩ := commitRule_eq t
  rw [heq] at hr
  cases hr
  obtain ⟨before, a, c, hch, hav, hcv⟩ := (hg g).1 rfl
  obtain ⟨later, hlater⟩ := ht
  rw [← hlater, hch, Linked] at hlink
  have hlast : List.IsChain _ [[a], [g], [c]] := hlink.left_of_append.right_of_append
  simp only [List.isChain_cons_cons, List.mem_singleton, forall_eq] at hlast
  rw [hch]
  exact ⟨a, c, by simp, by simp, hlast.1 hav, hlast.2.1 hcv, hav, hcv⟩

/-- The blocks of views 1 to 3 in a row, with certificates for them. -/
def inARow : List Given :=
  [.msg (.block (FourNodes.block 1 .initial)), .certificate (FourNodes.certificate 1),
    .msg (.block (FourNodes.block 2 (FourNodes.certificate 1))), .certificate (FourNodes.certificate 2),
    .msg (.block (FourNodes.block 3 (FourNodes.certificate 2))), .certificate (FourNodes.certificate 3)]

theorem commits_three_chain_inARow :
    ∃ g t', commitRule (feed FourNodes.second 9 inARow) = .ok (some g) t' ∧ g.view = 2 ∧
      ∃ a c, [a] ∈ (feed FourNodes.second 9 inARow).notarizedChain ∧
        [c] ∈ (feed FourNodes.second 9 inARow).notarizedChain ∧ g.prevID = a.id ∧ c.prevID = g.id ∧
        a.view + 1 = g.view ∧ g.view + 1 = c.view := by
  have hrun : passes commitRule (fun r _ => decide (r.map Block.view = some 2))
      (feed FourNodes.second 9 inARow) = true := by
    decide_cbv
  obtain ⟨r, t', hr, hview⟩ := exists_ok_of_passes hrun
  obtain ⟨g, rfl, hg⟩ := Option.map_eq_some_iff.1 (of_decide_eq_true hview)
  have hlink : Linked (feed FourNodes.second 9 inARow).notarizedChain := by
    decide_cbv
  exact ⟨g, t', hr, hg, commits_three_chain FourNodes.second 9 inARow hlink _ t' (List.prefix_refl _) g hr⟩

/-- **A commit without a three-chain.**  The blocks of views 2 and 3 both extend that of view 1.  When all
three are notarized, `commitRule` returns the block of view 2, which has no notarized child, and the replica
has committed it. -/
theorem childless_block_committed :
    Valid (feed FourNodes.second 9 forked) ∧ ∃ g t', commitRule (feed FourNodes.second 9 forked) = .ok (some g) t' ∧
      g ∈ (feed FourNodes.second 9 forked).committedBlocks ∧
      ∀ c, [c] ∈ (feed FourNodes.second 9 forked).notarizedChain → c.prevID ≠ g.id := by
  obtain ⟨hvalid, hrun⟩ := Bool.and_eq_true_iff.1 forked_test
  obtain ⟨r, t', hr, htest⟩ := exists_ok_of_passes hrun
  obtain ⟨g, hg, hcom, hchild⟩ := of_decide_eq_true htest
  obtain rfl := Option.mem_def.1 hg
  refine ⟨valid_of_test (Bool.and_eq_true_iff.1 hvalid).1, g, t', hr, hcom, ?_⟩
  exact fun c hc => hchild [c] hc c (List.mem_singleton_self c)

end Streamlet

end Bamboo
