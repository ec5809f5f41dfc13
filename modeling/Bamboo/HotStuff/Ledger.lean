import Bamboo.HotStuff.Certificates

/-!
# The ledger of a HotStuff replica

A commit delivers the stored ancestors of a block from the top down and stops at the lowest level of the
forest, or at a block whose parent is not stored.  Blocks are inserted without their parents being
known, so the second case can leave a gap for good.

* `Unbroken`: the walk of a commit does not run into a missing parent;
* `indexed_of_reachable`: what is stored is not below the lowest level, and one block at most is at it;
* `Ledger`: what the replica has delivered is one chain from the first block up;
* `ledger_has_no_gaps`, and `missed_block_leaves_gap`, a run in which a replica misses the first block.
-/

namespace Bamboo

namespace HotStuff

/-- The stored chain from the block down along `PrevID` reaches the lowest level of the forest or, while
nothing has been committed, a block that has no parent. -/
inductive Unbroken (f : LevelledForest) : Block → Prop
  | low {b : Block} (h : b.level ≤ f.lowestLevel) : Unbroken f b
  | first {b : Block} (hz : b.prevID = zeroID) (h0 : f.lowestLevel = 0) : Unbroken f b
  | next {b p : Block} (hp : f.getVertex b.prevID = some p) (ht : Unbroken f p) : Unbroken f b

/-- Every commit of the replica found an unbroken chain. -/
def UnbrokenCommits (trace : List Entry) : Prop :=
  ∀ qc g f batch, .committed qc g f batch ∈ trace → Unbroken f g

variable {cf : Config} {members : List NodeID} {w w' : NodeID → HotStuff} {P P' : Block → Prop}

/-! ### Levels -/

/-- `l` is the level of the block with the given id. -/
def HasLevel (P : Block → Prop) (id l : ℕ) : Prop :=
  id = zeroID ∨ ∃ b, P b ∧ b.id = id ∧ b.level = l

theorem HasLevel.mono {id l : ℕ} (h : HasLevel P id l) (hP : ∀ b, P b → P' b) : HasLevel P' id l :=
  h.imp_right fun ⟨b, hb, hrest⟩ => ⟨b, hP b hb, hrest⟩

theorem HasLevel.eq (hid : CollisionFree P) {b : Block} (hb : P b) {l : ℕ} (h : HasLevel P b.id l) :
    l = b.level := by
  rcases h with h | ⟨b', hb', hbid, rfl⟩
  · exact absurd h (hid.ne_zero hb)
  · rw [hid.inj hb' hb hbid]

/-- A block's certificate gives its parent the level it has. -/
theorem Sound.hasLevel_parent (h : Sound cf members w) {b : Block} (hb : Proposed w b) {q l : ℕ}
    (hp : b.parent = some (q, l)) : HasLevel (Proposed w) q l := by
  obtain ⟨-, -, -, qc, hqc, hprev, hfine⟩ := h.msgOk hb
  simp only [Block.parent, hqc, Option.map_some, Option.some.injEq, Prod.mk.injEq] at hp
  obtain ⟨rfl, rfl⟩ := hp
  rw [hprev]
  rcases hfine with rfl | ⟨p, hq⟩
  · exact Or.inl rfl
  · exact Or.inr ⟨p, hq.proposed, hq.blockID.symm, by rw [Block.level, hq.view]⟩

section Runs

variable (hw : (hotStuffSteps cf members).Reachable w) (hid : CollisionFree (Proposed w))
include hw hid

theorem indexed_of_reachable (i : NodeID) :
    (w i).bc.forrest.Indexed (HasLevel (Proposed w)) := by
  refine hw.invariant (P := fun w => CollisionFree (Proposed w))
    (J := fun w _ s => s.bc.forrest.Indexed (HasLevel (Proposed w))) (fun _ => LevelledForest.indexed_new)
    (fun ha => (Act.later ha).collisionFree) ?_
    (fun ha h => h.mono fun id l hl => hl.mono (Act.later ha).proposed) hid i
  intro w j t hr hj hid ha h
  have hlater : Later w (Function.update w j t) := Act.later ha
  suffices hnew : t.bc.forrest.Indexed (HasLevel (Proposed w)) from
    hnew.mono fun id l hl => hl.mono hlater.proposed
  rcases Act.bc_cases ha with hb | ⟨b, f, hb', hf, hb⟩ | ⟨v, -, hb⟩ | hd | ⟨qc, g, l, fl, -, hc⟩
  · rw [hb]
    exact h
  · rw [hb]
    have hprop : Proposed w b := hb'.heard.sent
    have hs := sound_of_reachable hr (hlater.collisionFree hid)
    exact hf.indexed _ (Or.inr ⟨b, hprop, rfl, rfl⟩) (fun q l hp => hs.hasLevel_parent hprop hp) h
  · rw [hb]
    exact h
  · rw [hd.forrest]
    exact h
  · exact hc.indexed _ h

/-- What is stored is at the lowest level or above. -/
theorem lowestLevel_le_of_stored {i : NodeID} {x : ℕ} {b : Block}
    (hx : (w i).bc.forrest.getVertex x = some b) : (w i).bc.forrest.lowestLevel ≤ b.level := by
  obtain ⟨hbid, hb⟩ := Sound.stored (hw.ok i) hx
  refine (indexed_of_reachable hw hid i).lowestLevel_le hx fun l hl => ?_
  exact HasLevel.eq hid hb (hbid.symm ▸ hl)

/-- Two proposals are not at one level. -/
theorem eq_of_level_eq (he : cf.elec.Consistent members) {b b' : Block} (hb : Proposed w b)
    (hb' : Proposed w b') (h : b.level = b'.level) : b = b' := by
  have h1 := one_le_view_of_proposed hw hb
  have h2 := one_le_view_of_proposed hw hb'
  have hl : (uint64 b.view : ℤ) = uint64 b'.view := congrArg Nat.cast h
  rw [uint64_of_nonneg (by omega), uint64_of_nonneg (by omega)] at hl
  exact proposed_unique hw he hid hb hb' hl

end Runs

/-! ### The delivered blocks -/

/-- The delivered blocks contain the parents of all but the first, and they all are ancestors of the
one at the lowest level. -/
structure Ledger (P : Block → Prop) (s : HotStuff) : Prop where
  closed : ∀ x ∈ s.committedBlocks, x.prevID = zeroID ∨ ∃ p ∈ s.committedBlocks, p.id = x.prevID
  head : s.committedBlocks = [] ∧ s.bc.forrest.lowestLevel = 0 ∨
    ∃ h ∈ s.committedBlocks, P h ∧ h.level = s.bc.forrest.lowestLevel ∧
      ∀ x ∈ s.committedBlocks, Ancestor P x h

theorem ledger_new (n : ℕ) : Ledger P (HotStuff.new n) where
  closed := fun x hx => by simp [HotStuff.new] at hx
  head := Or.inl ⟨rfl, rfl⟩

theorem Ledger.mono {s : HotStuff} (h : Ledger P s) (hP : ∀ b, P b → P' b) : Ledger P' s where
  closed := h.closed
  head := h.head.imp_right fun ⟨g, hg, hPg, hl, hanc⟩ =>
    ⟨g, hg, hP g hPg, hl, fun x hx => (hanc x hx).mono hP⟩

/-- A step that delivers nothing. -/
theorem Ledger.congr {s t : HotStuff} (h : Ledger P s) (hc : t.committedBlocks = s.committedBlocks)
    (hl : t.bc.forrest.lowestLevel = s.bc.forrest.lowestLevel) : Ledger P t :=
  ⟨hc ▸ h.closed, by rw [hc, hl]; exact h.head⟩

/-! ### The walk of a commit -/

section Walk

variable {f : LevelledForest} {b p : Block} {l : List Block}
  (hid : CollisionFree P) (hst : ∀ x b, f.getVertex x = some b → b.id = x ∧ P b)
include hid hst

theorem Unbroken.parent (h : Unbroken f b) (hlow : f.lowestLevel < b.level)
    (hp : f.getVertex b.prevID = some p) : Unbroken f p := by
  cases h with
  | low h => omega
  | first hz _ =>
    obtain ⟨hpid, hPp⟩ := hst _ _ hp
    exact absurd (hpid.trans hz) (hid.ne_zero hPp)
  | next hp' ht =>
    rw [hp] at hp'
    cases hp'
    exact ht

/-- The parents of the blocks on the walk are on the walk, or at the lowest level. -/
theorem parents_of_walk (h : BlockChain.Above f f.lowestLevel b l) (hu : Unbroken f b) :
    ∀ x ∈ l, x.prevID = zeroID ∨
      ∃ p, f.getVertex x.prevID = some p ∧ (p ∈ l ∨ p.level ≤ f.lowestLevel) := by
  induction h with
  | stop => simp
  | last hlow hn =>
    intro x hx
    rw [List.mem_singleton.1 hx]
    cases hu with
    | low h => exact absurd h (Nat.not_le_of_lt hlow)
    | first hz _ => exact Or.inl hz
    | next hp _ =>
      rw [hn] at hp
      cases hp
  | @next b p l hlow hp ht ih =>
    intro x hx
    rcases List.mem_cons.1 hx with rfl | hx
    · refine Or.inr ⟨p, hp, ?_⟩
      cases ht with
      | stop h => exact Or.inr h
      | last _ _ => exact Or.inl (by simp)
      | next _ _ _ => exact Or.inl (by simp)
    · rcases ih (hu.parent hid hst hlow hp) x hx with h | ⟨q, hq, hql⟩
      · exact Or.inl h
      · exact Or.inr ⟨q, hq, hql.imp_left (List.mem_cons_of_mem _)⟩

/-- The walk ends at the block that was committed last, if there is one. -/
theorem head_of_walk (hlv : ∀ x b, f.getVertex x = some b → f.lowestLevel ≤ b.level)
    (hun : ∀ b b', P b → P b' → b.level = b'.level → b = b') {h : Block} (hh : P h)
    (hhl : h.level = f.lowestLevel) (hpos : 0 < f.lowestLevel)
    (ha : BlockChain.Above f f.lowestLevel b l) (hu : Unbroken f b) (hb : P b)
    (hle : f.lowestLevel ≤ b.level) : Ancestor P h b := by
  induction ha with
  | stop hlow =>
    have : h = _ := hun h _ hh hb (by rw [hhl]; exact Nat.le_antisymm hle hlow)
    exact this ▸ Chain.Ancestor.refl h
  | last hlow hn =>
    cases hu with
    | low h => exact absurd h (Nat.not_le_of_lt hlow)
    | first _ h0 => omega
    | next hp _ =>
      rw [hn] at hp
      cases hp
  | next hlow hp _ ih =>
    obtain ⟨hpid, hPp⟩ := hst _ _ hp
    exact Chain.Ancestor.step (ih (hu.parent hid hst hlow hp) hPp (hlv _ _ hp)) ⟨hPp, hb, hpid⟩

end Walk

section Runs

variable (hw : (hotStuffSteps cf members).Reachable w) (hid : CollisionFree (Proposed w))
  (he : cf.elec.Consistent members)
include hw hid he

/-- A commit along an unbroken chain extends the ledger. -/
theorem Ledger.commit {i : NodeID} (h : Ledger (Proposed w) (w i)) {g : Block} {batch : List Block}
    (hg : (w i).bc.forrest.getVertex g.id = some g)
    (habove : BlockChain.Above (w i).bc.forrest (w i).bc.forrest.lowestLevel g batch)
    (hu : Unbroken (w i).bc.forrest g) {t : HotStuff}
    (hc : t.committedBlocks = (w i).committedBlocks ++ batch)
    (hl : t.bc.forrest.lowestLevel = g.level) : Ledger (Proposed w) t := by
  have hok := hw.ok i
  have hst : ∀ x b, (w i).bc.forrest.getVertex x = some b → b.id = x ∧ Proposed w b :=
    fun x b hx => Sound.stored hok hx
  have hlv : ∀ x b, (w i).bc.forrest.getVertex x = some b → (w i).bc.forrest.lowestLevel ≤ b.level :=
    fun x b hx => lowestLevel_le_of_stored hw hid hx
  have hpos : ∀ b, Proposed w b → 0 < b.level := by
    intro b hb
    have h1 := one_le_view_of_proposed hw hb
    have h2 := uint64_of_nonneg (v := b.view) (by omega)
    show 0 < uint64 b.view
    omega
  have hgp := (hst _ _ hg).2
  have hgl := hlv _ _ hg
  by_cases hstop : g.level ≤ (w i).bc.forrest.lowestLevel
  · -- the committed block is the last one again
    have hnil : batch = [] := by
      cases habove with
      | stop => rfl
      | last h _ => exact absurd hstop (Nat.not_le_of_lt h)
      | next h _ _ => exact absurd hstop (Nat.not_le_of_lt h)
    exact h.congr (by rw [hc, hnil, List.append_nil]) (by omega)
  have hmem : g ∈ batch := by
    cases habove with
    | stop h => exact absurd h hstop
    | last _ _ => simp
    | next _ _ _ => simp
  have hanc := Sound.ancestor_of_above hok habove hgp
  constructor
  · intro x hx
    rw [hc] at hx ⊢
    rcases List.mem_append.1 hx with hx | hx
    · exact (h.closed x hx).imp_right fun ⟨p, hp, hpid⟩ => ⟨p, List.mem_append_left _ hp, hpid⟩
    · rcases parents_of_walk hid hst habove hu x hx with hz | ⟨p, hp, hpl⟩
      · exact Or.inl hz
      obtain ⟨hpid, hpp⟩ := hst _ _ hp
      refine Or.inr ⟨p, ?_, hpid⟩
      rcases hpl with hpl | hpl
      · exact List.mem_append_right _ hpl
      · -- at the lowest level there is the last committed block only
        have hpeq : p.level = (w i).bc.forrest.lowestLevel := Nat.le_antisymm hpl (hlv _ _ hp)
        rcases h.head with ⟨-, h0⟩ | ⟨k, hk, hkp, hkl, -⟩
        · have := hpos p hpp
          omega
        · rw [eq_of_level_eq hw hid he hpp hkp (by rw [hpeq, hkl])]
          exact List.mem_append_left _ hk
  · refine Or.inr ⟨g, by rw [hc]; exact List.mem_append_right _ hmem, hgp, hl.symm, ?_⟩
    intro x hx
    rw [hc] at hx
    rcases List.mem_append.1 hx with hx | hx
    · rcases h.head with ⟨hn, -⟩ | ⟨k, hk, hkp, hkl, hkanc⟩
      · rw [hn] at hx
        cases hx
      · exact (hkanc x hx).trans (head_of_walk hid hst hlv
          (fun b b' hb hb' => eq_of_level_eq hw hid he hb hb') hkp hkl
          (by have := hpos k hkp; omega) habove hu hgp hgl)
    · exact hanc x hx

/-- One small step of a replica keeps its ledger in order. -/
theorem Ledger.act {i : NodeID} (h : Ledger (Proposed w) (w i)) {t : HotStuff}
    (ha : Act (cf.honest i) (Net.SentTo HotStuff.sent w i) (w i) t) (hu : UnbrokenCommits t.trace) :
    Ledger (Proposed w) t := by
  cases ha with
  | certify hk hv hp ht =>
    obtain ⟨v, rfl, -⟩ := updatePreferredView_cases ht
    exact h.congr (by simp) (by simp)
  | offer hb hqc => exact h.congr (by simp) (by simp)
  | accept hb hf => exact h.congr rfl hf.lowest
  | commitFailed hd => exact h.congr rfl (by rw [hd.forrest])
  | @commit qc g batch forked bc hk hp h3 hg hc =>
    obtain ⟨-, -, p', -, -, -, hgs, -, -⟩ := commitRule_cases hg
    have hgg : (w i).bc.forrest.getVertex g.id = some g := by
      rw [(Sound.stored (hw.ok i) hgs).1]
      exact hgs
    obtain ⟨g', hg', habove, -, hlow⟩ := hc.done batch forked rfl
    rw [hgg] at hg'
    cases hg'
    refine h.commit hw hid he hgg habove ?_ rfl hlow
    exact hu qc g _ batch (List.mem_append_right _ (List.mem_singleton.2 rfl))
  | _ => exact h.congr rfl rfl

theorem ledger_of_reachable (i : NodeID) (hu : UnbrokenCommits (w i).trace) :
    Ledger (Proposed w) (w i) := by
  refine hw.invariant (P := fun w => CollisionFree (Proposed w))
    (J := fun w _ s => UnbrokenCommits s.trace → Ledger (Proposed w) s) (fun _ _ => ledger_new cf.n)
    (fun ha => (Act.later ha).collisionFree) ?_ (fun ha h hu => (h hu).mono (Act.later ha).proposed) hid i hu
  intro w j t hr hj hid ha h hu
  have hlater : Later w (Function.update w j t) := Act.later ha
  refine Ledger.mono (P := Proposed w) ?_ hlater.proposed
  have hold := h fun qc g f batch hm => hu qc g f batch ((Act.subset ha).2 hm)
  exact hold.act hr (hlater.collisionFree hid) he ha hu

end Runs

/-- **No gaps.**  In every run of honest replicas, a replica whose commits all found an unbroken chain has
delivered the parent of every block but the first that it has delivered, and all of them lie on one
chain. -/
theorem ledger_has_no_gaps {net : NodeID → Net.Proc HotStuff}
    (hr : (hotStuffNet cf members).Reachable net) (he : cf.elec.Consistent members)
    (hid : CollisionFree (Proposed (Net.states net))) (i : NodeID)
    (hu : UnbrokenCommits (net i).st.trace) :
    (∀ x ∈ (net i).st.committedBlocks, x.prevID = zeroID ∨
      ∃ p ∈ (net i).st.committedBlocks, p.id = x.prevID) ∧
    ∀ x ∈ (net i).st.committedBlocks, ∀ y ∈ (net i).st.committedBlocks,
      Ancestor (Proposed (Net.states net)) x y ∨ Ancestor (Proposed (Net.states net)) y x := by
  have hw : (hotStuffSteps cf members).Reachable (Net.states net) := .of_reachable hr
  have hled := ledger_of_reachable hw hid he i hu
  refine ⟨hled.closed, fun x hx y hy => ?_⟩
  rcases hled.head with ⟨hn, -⟩ | ⟨h, -, -, -, hanc⟩
  · have hx' : x ∈ (Net.states net i).committedBlocks := hx
    rw [hn] at hx'
    cases hx'
  · exact Chain.Ancestor.total (fun _ _ _ h h' => h.unique hid h') (hanc x hx) (hanc y hy)

/-! ### Runs -/

/-- The committed block has no parent and nothing was committed before, or its parent is stored at the
lowest level. -/
def adjoins (f : LevelledForest) (g : Block) : Bool :=
  match f.getVertex g.prevID with
  | none => decide (g.prevID = zeroID ∧ f.lowestLevel = 0)
  | some p => decide (p.level ≤ f.lowestLevel)

/-- Every commit of the replica adjoins the ones before. -/
def commitsAdjoin (trace : List Entry) : Bool :=
  trace.all fun e => match e with
    | .committed _ g f _ => adjoins f g
    | _ => true

theorem unbrokenCommits_of_list {trace : List Entry} (h : commitsAdjoin trace = true) :
    UnbrokenCommits trace := by
  intro qc g f batch hm
  have hadj : adjoins f g = true := List.all_eq_true.1 h _ hm
  unfold adjoins at hadj
  cases hp : f.getVertex g.prevID with
  | none =>
    rw [hp] at hadj
    obtain ⟨hz, h0⟩ := of_decide_eq_true hadj
    exact .first hz h0
  | some p =>
    rw [hp] at hadj
    exact .next hp (.low (of_decide_eq_true hadj))

/-- Without loss node 1 delivers the first two blocks. -/
theorem ledger_has_no_gaps_steadyRun :
    ∃ net, (hotStuffNet (FourNodes.config fun _ => "1") FourNodes.members).Reachable net ∧
      ∃ x ∈ (net "1").st.committedBlocks, x.prevID ≠ zeroID ∧
        (x.prevID = zeroID ∨ ∃ p ∈ (net "1").st.committedBlocks, p.id = x.prevID) := by
  obtain ⟨net, hr, htest⟩ :=
    (hotStuffNet (FourNodes.config fun _ => "1") FourNodes.members).exists_reachable steadyRun
      (fun net => decide (
        ((blocksSent HotStuff.sent FourNodes.members (Net.states net)).map Block.id).Nodup ∧
        (∀ b ∈ blocksSent HotStuff.sent FourNodes.members (Net.states net), b.id ≠ zeroID) ∧
        commitsAdjoin (net "1").st.trace = true ∧
        ∃ x ∈ (net "1").st.committedBlocks, x.prevID ≠ zeroID)) (by decide_cbv)
  obtain ⟨hnd, hnz, hadj, x, hx, hxz⟩ := of_decide_eq_true htest
  have hid := collisionFree_of_list
    (mem_blocksSent_of_proposed (.of_reachable (R := hotStuffSteps _ _) hr)) ⟨hnd, hnz⟩
  exact ⟨net, hr, x, hx, hxz, (ledger_has_no_gaps hr (FourNodes.consistent _ _) hid "1"
    (unbrokenCommits_of_list hadj)).1 x hx⟩

/-- Node 1 proposes in views 1 to 5.  Node 2 never gets the block of view 1 and leaves view 0 by its timer;
it gets the other blocks. -/
def missedBlockRun : List (Net.System.Sched NodeID Event) :=
  [.fire "1" .txn,
    FourNodes.newView "1", .pass "1" 0 "3", .pass "1" 0 "4", .pass "3" 0 "1", .pass "4" 0 "1",
    .fire "2" .timer,
    FourNodes.newView "1", .pass "1" 1 "2", .pass "1" 1 "3", .pass "1" 1 "4", .pass "3" 1 "1",
    .pass "4" 1 "1",
    FourNodes.newView "1", .pass "1" 2 "2", .pass "1" 2 "3", .pass "1" 2 "4", .pass "3" 2 "1",
    .pass "4" 2 "1",
    FourNodes.newView "1", .pass "1" 3 "2", .pass "1" 3 "3", .pass "1" 3 "4", .pass "3" 3 "1",
    .pass "4" 3 "1",
    FourNodes.newView "1", .pass "1" 4 "2"]

/-- **A block that was missed leaves a gap.**  Node 2 delivers the block of view 2 and not its parent. -/
theorem missed_block_leaves_gap :
    ∃ net, (hotStuffNet (FourNodes.config fun _ => "1") FourNodes.members).Reachable net ∧
      CollisionFree (Proposed (Net.states net)) ∧
      ∃ x ∈ (net "2").st.committedBlocks, x.prevID ≠ zeroID ∧
        ∀ p ∈ (net "2").st.committedBlocks, p.id ≠ x.prevID := by
  obtain ⟨net, hr, htest⟩ :=
    (hotStuffNet (FourNodes.config fun _ => "1") FourNodes.members).exists_reachable missedBlockRun
      (fun net => decide (
        ((blocksSent HotStuff.sent FourNodes.members (Net.states net)).map Block.id).Nodup ∧
        (∀ b ∈ blocksSent HotStuff.sent FourNodes.members (Net.states net), b.id ≠ zeroID) ∧
        ∃ x ∈ (net "2").st.committedBlocks, x.prevID ≠ zeroID ∧
          ∀ p ∈ (net "2").st.committedBlocks, p.id ≠ x.prevID)) (by decide_cbv)
  obtain ⟨hnd, hnz, hgap⟩ := of_decide_eq_true htest
  have hbs := mem_blocksSent_of_proposed (.of_reachable (R := hotStuffSteps _ _) hr)
  exact ⟨net, hr, collisionFree_of_list hbs ⟨hnd, hnz⟩, hgap⟩

end HotStuff

end Bamboo
