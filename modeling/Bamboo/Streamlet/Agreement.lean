import Bamboo.Streamlet.Certificates
import Bamboo.Streamlet.Range

/-!
# Agreement in Streamlet

A replica votes for a block on the last block of its notarized chain, which is the one of the highest view, and
commits the block before the last one if the last three have consecutive views.  The commit is safe if the last
block is a child of the one that is committed: its voters had that one at the end of their chains.  But the code
takes neighbours in the chain for parent and child.

* `TimedOut`, `Clocked`: a quorum has come to a view, and the view events that rest on one;
* `Origin`: why a leader proposed a block, on a certificate of the view before, or after timeouts;
* `Remembers`: what the notarized chain of a replica has to do with those it voted under;
* `supported_extends`: blocks with certificates extend a block that has a child of the next view with one;
* `agreement_of_linked_commits`, and `neighbour_committed`, a run in which a replica commits two children of one
  block.
-/

namespace Bamboo

/-! ### Timeouts -/

/-- A timeout on record was there before, or is the one just counted. -/
theorem Pacemaker.lookup_processRemoteTmo {p : Pacemaker} {tmo tmo' : TMO} {v : ℤ} {j : NodeID}
    (h : ((p.processRemoteTmo tmo).2.timeoutController.timeoutsFor v).lookup j = some tmo') :
    (p.timeoutController.timeoutsFor v).lookup j = some tmo' ∨ tmo.view = v ∧ tmo.nodeID = j := by
  unfold processRemoteTmo at h
  split_ifs at h with hlt
  · exact Or.inl h
  · have hins : ((p.timeoutController.timeouts.insert tmo.view
        ((p.timeoutController.timeoutsFor tmo.view).insert tmo.nodeID tmo)).lookup v |>.getD ∅).lookup j =
          some tmo' → (p.timeoutController.timeoutsFor v).lookup j = some tmo' ∨
            tmo.view = v ∧ tmo.nodeID = j := by
      intro h
      by_cases hv : v = tmo.view
      · subst hv
        rw [AList.lookup_insert, Option.getD_some] at h
        by_cases hj : j = tmo.nodeID
        · exact Or.inr ⟨rfl, hj.symm⟩
        · rw [AList.lookup_insert_ne hj] at h
          exact Or.inl h
      · rw [AList.lookup_insert_ne hv] at h
        exact Or.inl h
    unfold TimeoutController.addTmo at h
    dsimp only at h
    split_ifs at h
    · exact Or.inl h
    · exact hins h
    · exact hins h

/-- A timeout certificate stands for timeouts of more than two thirds of the nodes. -/
theorem Pacemaker.superMajority_processRemoteTmo {p : Pacemaker} {tmo : TMO} {tc : TC}
    (h : (p.processRemoteTmo tmo).1 = some tc) :
    (p.processRemoteTmo tmo).2.timeoutController.superMajority tc.view = true := by
  unfold processRemoteTmo TimeoutController.addTmo at h ⊢
  dsimp only at h ⊢
  split_ifs at h ⊢ with h₁ h₂ h₃
  cases h
  exact h₃

theorem Pacemaker.n_processRemoteTmo (p : Pacemaker) (tmo : TMO) :
    (p.processRemoteTmo tmo).2.timeoutController.n = p.timeoutController.n := by
  unfold processRemoteTmo TimeoutController.addTmo
  dsimp only
  split_ifs <;> rfl

namespace Streamlet

section SmallSteps

variable {nd : Node} {In : Msg → Prop} {s t : Streamlet} {v : ℤ}

theorem Act.table_cases (h : Act nd In s t) {j : NodeID} {tmo' : TMO}
    (hl : (t.pm.timeoutController.timeoutsFor v).lookup j = some tmo') :
    (s.pm.timeoutController.timeoutsFor v).lookup j = some tmo' ∨
      ∃ tmo, Heard In s (.tmo tmo) ∧ tmo.view = v ∧ tmo.nodeID = j := by
  have hadvance : ∀ view, ((s.pm.advanceView view).timeoutController.timeoutsFor v).lookup j = some tmo' →
      (s.pm.timeoutController.timeoutsFor v).lookup j = some tmo' := by
    intro view h
    unfold Pacemaker.advanceView at h
    split_ifs at h <;> exact h
  cases h with
  | advance => exact Or.inl (hadvance _ hl)
  | kickOff => exact Or.inl (hadvance _ hl)
  | notarize => exact Or.inl (hadvance _ hl)
  | @timeout tmo ht => exact (Pacemaker.lookup_processRemoteTmo hl).imp_right fun h => ⟨tmo, ht, h⟩
  | _ => exact Or.inl hl

theorem Act.total_eq (h : Act nd In s t) : t.pm.timeoutController.n = s.pm.timeoutController.n := by
  have hadvance : ∀ view, (s.pm.advanceView view).timeoutController.n = s.pm.timeoutController.n := by
    intro view
    unfold Pacemaker.advanceView
    split_ifs <;> rfl
  cases h with
  | advance => exact hadvance _
  | kickOff => exact hadvance _
  | notarize => exact hadvance _
  | timeout => exact Pacemaker.n_processRemoteTmo _ _
  | _ => rfl

theorem Act.pending_cases (h : Act nd In s t) (hv : v ∈ t.pending) :
    v ∈ s.pending ∨ t.pm.timeoutController.superMajority v = true := by
  cases h with
  | advance => exact Or.inl (List.mem_of_mem_eraseIdx hv)
  | @timeout tmo ht =>
    rcases List.mem_append.1 hv with hv | hv
    · exact Or.inl hv
    · obtain ⟨tc, htc, rfl⟩ := List.mem_map.1 hv
      exact Or.inr (Pacemaker.superMajority_processRemoteTmo (Option.mem_toList.1 htc))
  | _ => exact Or.inl hv

/-- A view is entered because a task waits for it, or with a certificate that extends the chain. -/
theorem Act.entered_cases (h : Act nd In s t) (hv : v ∈ t.pm.newViewChan) :
    v ∈ s.pm.newViewChan ∨ v = 1 ∨ v - 1 ∈ s.pending ∨
      ∃ qc b, Known s qc ∧ s.bc.forrest.getVertex qc.blockID = some b ∧ [b] ∈ t.notarizedChain ∧
        v - 1 = qc.view := by
  have hadvance : ∀ {view}, v ∈ (s.pm.advanceView view).newViewChan → v ∈ s.pm.newViewChan ∨ v = view + 1 := by
    intro view h
    unfold Pacemaker.advanceView at h
    split_ifs at h
    · exact Or.inl h
    · exact (List.mem_append.1 h).imp_right List.mem_singleton.1
  cases h with
  | @advance k view hk =>
    rcases hadvance hv with hv | rfl
    · exact Or.inl hv
    · exact Or.inr (Or.inr (Or.inl (by simpa using List.mem_of_getElem? hk)))
  | kickOff =>
    rcases hadvance hv with hv | hv
    · exact Or.inl hv
    · exact Or.inr (Or.inl (by simpa using hv))
  | @notarize qc b hk hb hcur hp =>
    rcases hadvance hv with hv | rfl
    · exact Or.inl hv
    · exact Or.inr (Or.inr (Or.inr ⟨qc, b, hk, hb, by simp, by omega⟩))
  | @timeout tmo ht =>
    obtain ⟨tcl, hpm, -⟩ := s.pm.processRemoteTmo_cases tmo
    rw [tmoState, hpm] at hv
    exact Or.inl hv
  | pop hq => exact Or.inl (hq ▸ List.mem_cons_of_mem _ hv)
  | propose hq => exact Or.inl (hq ▸ List.mem_cons_of_mem _ hv)
  | _ => exact Or.inl hv

end SmallSteps

variable {cf : Config} {members : List NodeID} {w w' : NodeID → Streamlet} {i : NodeID} {b : Block} {v : ℤ}

/-- A quorum has come to the view. -/
def TimedOut (cf : Config) (members : List NodeID) (w : NodeID → Streamlet) (v : ℤ) : Prop :=
  ∃ q, Quorums.IsQuorum members cf.n q ∧ ∀ i ∈ q, v ≤ (w i).pm.curView

theorem Later.timedOut (h : Later w w') (ht : TimedOut cf members w v) : TimedOut cf members w' v := by
  obtain ⟨q, hq, hv⟩ := ht
  exact ⟨q, hq, fun i hi => le_trans (hv i hi) (h.curView i)⟩

/-- A replica was told to enter the view: at the start, after timeouts of the view before, or with a notarized
block of the view before or a later one. -/
def Entered (cf : Config) (members : List NodeID) (w : NodeID → Streamlet) (i : NodeID) (v : ℤ) : Prop :=
  v ≤ 1 ∨ TimedOut cf members w (v - 1) ∨ ∃ l ∈ (w i).notarizedChain, ∃ a ∈ l, v - 1 ≤ a.view

/-- Timeouts on record are from members that have come to the view, and tasks and view events rest on them. -/
structure Clocked (cf : Config) (members : List NodeID) (w : NodeID → Streamlet) : Prop where
  total : ∀ i, (w i).pm.timeoutController.n = cf.n
  table : ∀ i v j tmo, ((w i).pm.timeoutController.timeoutsFor v).lookup j = some tmo →
    j ∈ members ∧ v ≤ (w j).pm.curView
  pending : ∀ i, ∀ v ∈ (w i).pending, TimedOut cf members w v
  entered : ∀ i, ∀ v ∈ (w i).pm.newViewChan, Entered cf members w i v

theorem clocked_new : Clocked cf members fun _ => Streamlet.new cf.n where
  total := fun _ => rfl
  table := fun _ _ _ _ h => by
    simp [Streamlet.new, Pacemaker.new, Pacemaker.advanceView, TimeoutController.new,
      TimeoutController.timeoutsFor] at h
  pending := fun _ _ h => by simp [Streamlet.new] at h
  entered := fun _ v h => by
    simp only [Streamlet.new, Pacemaker.new, Pacemaker.advanceView, lt_irrefl, if_false, List.nil_append,
      List.mem_singleton] at h
    exact Or.inl (by omega)

/-- The nodes on record for a view with a super majority are a quorum. -/
theorem quorum_of_superMajority {tcl : TimeoutController} {P : NodeID → Prop} (hn : tcl.n = cf.n)
    (htable : ∀ j tmo, (tcl.timeoutsFor v).lookup j = some tmo → j ∈ members ∧ P j)
    (hmaj : tcl.superMajority v = true) : ∃ q, Quorums.IsQuorum members cf.n q ∧ ∀ i ∈ q, P i := by
  have hkey : ∀ j ∈ (tcl.timeoutsFor v).keys, j ∈ members ∧ P j := by
    intro j hj
    rw [← AList.mem_keys, ← AList.lookup_isSome, Option.isSome_iff_exists] at hj
    obtain ⟨tmo, htmo⟩ := hj
    exact htable j tmo htmo
  refine ⟨(tcl.timeoutsFor v).keys, ⟨AList.keys_nodup _, ?_, fun j hj => (hkey j hj).1⟩, fun j hj => (hkey j hj).2⟩
  rw [TimeoutController.superMajority, decide_eq_true_eq, hn] at hmaj
  rw [AList.keys, List.keys, List.length_map]
  omega

/-- **One small step.** -/
theorem Clocked.act (h : Clocked cf members w) (hs : Sound cf members w) (hv : Valid (w i)) (hc : Climbing (w i))
    {t : Streamlet} (hok : Ok (cf.honest i) (Net.SentTo Streamlet.sent w i) (w i))
    (ha : Act (cf.honest i) (Net.SentTo Streamlet.sent w i) (w i) t) :
    Clocked cf members (Function.update w i t) := by
  have hlater : Later w (Function.update w i t) := ha.later
  have htotal : ∀ j, (Function.update w i t j).pm.timeoutController.n = cf.n := by
    intro j
    have heq := Net.update_rel (r := fun s t : Streamlet => t.pm.timeoutController.n = s.pm.timeoutController.n)
      (fun _ => rfl) ha.total_eq j
    exact heq.trans (h.total j)
  have htable : ∀ j v k tmo, ((Function.update w i t j).pm.timeoutController.timeoutsFor v).lookup k = some tmo →
      k ∈ members ∧ v ≤ (Function.update w i t k).pm.curView := by
    intro j v k tmo hnew
    have hold : k ∈ members ∧ v ≤ (w k).pm.curView := by
      rcases Net.update_cases (P := fun s : Streamlet =>
        (s.pm.timeoutController.timeoutsFor v).lookup k = some tmo) hnew with ⟨rfl, hl⟩ | hl
      · rcases ha.table_cases hl with hl | ⟨tmo', hheard, rfl, rfl⟩
        · exact h.table j v k tmo hl
        · -- a timeout was sent by the node it names
          obtain ⟨k, ⟨dest, body⟩, he, rfl⟩ := hheard.sent
          obtain ⟨hk, hnode, hview⟩ := hs.sent k _ he
          exact ⟨hnode ▸ hk, hnode ▸ hview⟩
      · exact h.table j v k tmo hl
    exact ⟨hold.1, le_trans hold.2 (hlater.curView k)⟩
  refine ⟨htotal, htable, fun j v hpend => ?_, fun j v hent => ?_⟩
  · rcases Net.update_cases (P := fun s : Streamlet => v ∈ s.pending) hpend with ⟨rfl, hp⟩ | hp
    · rcases ha.pending_cases hp with hp | hmaj
      · exact hlater.timedOut (h.pending j v hp)
      · refine quorum_of_superMajority (htotal j) (htable j v) ?_
        rw [Function.update_self]
        exact hmaj
    · exact hlater.timedOut (h.pending j v hp)
  · have hold : v ∈ (w j).pm.newViewChan → Entered cf members (Function.update w i t) j v := by
      intro hin
      rcases h.entered j v hin with h1 | ht | ⟨l, hl, a, ha', hle⟩
      · exact Or.inl h1
      · exact Or.inr (Or.inl (hlater.timedOut ht))
      · exact Or.inr (Or.inr ⟨l, (hlater.chain j).subset hl, a, ha', hle⟩)
    rcases Net.update_cases (P := fun s : Streamlet => v ∈ s.pm.newViewChan) hent with ⟨rfl, hin⟩ | hin
    · rcases ha.entered_cases hin with hin | h1 | hp | ⟨qc, b, hk, hb, hmem, hview⟩
      · exact hold hin
      · exact Or.inl (by omega)
      · exact Or.inr (Or.inl (hlater.timedOut (h.pending j _ hp)))
      · obtain ⟨chain, hacc⟩ := hc.accepted _ b hb
        have hbv := hv qc b chain hk hacc (hok.stored _ b hb).1
        refine Or.inr (Or.inr ⟨[b], ?_, b, List.mem_singleton_self b, by omega⟩)
        rw [Function.update_self]
        exact hmem
    · exact hold hin

section Runs

variable {depth : ℕ} (hw : (streamletSteps cf members depth).Reachable w) (hid : CollisionFree (Proposed w))
include hw hid

theorem clocked_of_reachable : Clocked cf members w := by
  induction hw with
  | start => exact clocked_new
  | @step w i t hr hi ha ih =>
    have hid' := (Act.later ha).collisionFree hid
    exact (ih hid').act (sound_of_reachable hr hid') (valid_of_reachable hr hid' i)
      (climbing_of_reachable hr hid' i) (hr.ok i) ha

end Runs

/-! ### Why a block was proposed -/

/-- The block is one of view 1, or it stands on a block of the view before or a later one, or a quorum has come
to the view before and votes for the block not before that. -/
def Origin (cf : Config) (members : List NodeID) (w : NodeID → Streamlet) (b : Block) : Prop :=
  b.view ≤ 1 ∨ (∃ a, ParentOf (Proposed w) a b ∧ b.view - 1 ≤ a.view) ∨
    ∃ q, Quorums.IsQuorum members cf.n q ∧ ∀ i ∈ q, b.view - 1 ≤ (w i).pm.curView ∧
      ∀ view chain, .voted b view chain ∈ (w i).trace → b.view - 1 ≤ view

theorem Origin.act (h : Origin cf members w b) {t : Streamlet}
    (ha : Act (cf.honest i) (Net.SentTo Streamlet.sent w i) (w i) t) :
    Origin cf members (Function.update w i t) b := by
  have hlater : Later w (Function.update w i t) := ha.later
  rcases h with h1 | ⟨a, hp, hle⟩ | ⟨q, hq, hlate⟩
  · exact Or.inl h1
  · exact Or.inr (Or.inl ⟨a, hp.mono hlater.proposed, hle⟩)
  · refine Or.inr (Or.inr ⟨q, hq, fun j hj => ⟨le_trans (hlate j hj).1 (hlater.curView j), ?_⟩⟩)
    intro view chain hnew
    rcases Net.update_cases (P := fun s : Streamlet => .voted b view chain ∈ s.trace) hnew with ⟨rfl, he⟩ | he
    · rcases ha.mem_trace he with he | ⟨-, rfl, -⟩
      · exact (hlate j hj).2 view chain he
      · exact (hlate j hj).1
    · exact (hlate j hj).2 view chain he

/-- In a chain in shape the last block has the highest view. -/
theorem Shaped.le_last {chain : List (List Block)} (h : Shaped chain) {l : List Block} (hl : l ∈ chain)
    {a : Block} (ha : a ∈ l) : ∃ z, chain.getLast? = some [z] ∧ a.view ≤ z.view := by
  rcases List.eq_nil_or_concat' chain with rfl | ⟨front, last, rfl⟩
  · cases hl
  obtain ⟨z, rfl⟩ := h.single last (by simp)
  refine ⟨z, by simp, ?_⟩
  rcases List.mem_append.1 hl with hl | hl
  · have hlt := (List.pairwise_append.1 h.increasing).2.2 l hl [z] (by simp) a ha z (by simp)
    exact le_of_lt hlt
  · rw [List.mem_singleton.1 hl] at ha
    rw [List.mem_singleton.1 ha]

section Runs

variable {depth : ℕ} (hw : (streamletSteps cf members depth).Reachable w) (hid : CollisionFree (Proposed w))
include hw hid

/-- **Every proposal has a reason.** -/
theorem origin_of_reachable (hb : Proposed w b) : Origin cf members w b := by
  induction hw with
  | start =>
    obtain ⟨i, e, he, -⟩ := hb
    simp [streamletNet, Streamlet.new] at he
  | @step w i t hr hi ha ih =>
    have hlater : Later w (Function.update w i t) := Act.later ha
    have hid' := hlater.collisionFree hid
    have hs := sound_of_reachable hr hid'
    by_cases hold : Proposed w b
    · exact (ih hid' hold).act ha
    have hprop := hb
    obtain ⟨j, e, hnew, hbody⟩ := hb
    rcases Net.update_cases (P := fun s : Streamlet => e ∈ s.sent) hnew with ⟨rfl, he⟩ | he
    swap
    · exact absurd ⟨j, e, he, hbody⟩ hold
    rcases Act.mem_sent ha he with he | ⟨b', -, ⟨v, rest, hq, -, hb'⟩, hbody'⟩ | ⟨hh, -⟩ | ⟨u, -, hu⟩ |
      ⟨tmo, -, -, htmo⟩
    · exact absurd ⟨j, e, he, hbody⟩ hold
    · rw [hbody] at hbody'
      cases hbody'
      rcases (clocked_of_reachable hr hid').entered j v (hq ▸ List.mem_cons_self) with h1 | ⟨q, hquorum, hv⟩ |
        ⟨l, hl, a, ha', hle⟩
      · exact Or.inl (hb'.view ▸ h1)
      · -- nobody has voted for the block yet
        refine Or.inr (Or.inr ⟨q, hquorum, fun k hk => ⟨?_, fun view chain hcast => absurd ?_ hold⟩⟩)
        · rw [hb'.view]
          exact le_trans (hv k hk) (hlater.curView k)
        · rcases Net.update_cases (P := fun s : Streamlet => .voted b view chain ∈ s.trace) hcast
            with ⟨rfl, hvote⟩ | hvote
          · rcases Act.mem_trace ha hvote with hvote | ⟨hheard, -⟩
            · exact (hs.voted k b view chain hvote).2.1
            · exact hheard.sent
          · exact (hs.voted k b view chain hvote).2.1
      · obtain ⟨z, hz, haz⟩ := (climbing_of_reachable hr hid' j).shaped.le_last hl ha'
        obtain ⟨qc, hqc⟩ := supported_of_chain hr hid' (List.mem_of_getLast? hz) (List.mem_singleton_self z)
        refine Or.inr (Or.inl ⟨z, ⟨hlater.proposed z hqc.proposed, hprop, ?_⟩, by rw [hb'.view]; omega⟩)
        rw [hb'.prevID, tailID, hz]
    · rw [hbody] at hh
      exact absurd hh.sent hold
    · rw [hbody] at hu
      cases hu
    · rw [hbody] at htmo
      cases htmo

end Runs

/-! ### The chains a replica has voted under -/

/-- The notarized chain extends every chain that the replica voted under, by blocks of views that were not over
then; those of the chain itself were. -/
def Remembers (s : Streamlet) : Prop :=
  ∀ b view chain, .voted b view chain ∈ s.trace → view ≤ s.pm.curView ∧
    (∀ l ∈ chain, ∀ x ∈ l, x.view < view) ∧
    ∃ later, s.notarizedChain = chain ++ later ∧ ∀ l ∈ later, ∀ x ∈ l, view ≤ x.view

theorem Act.remembers {nd : Node} {In : Msg → Prop} {s t : Streamlet} (ha : Act nd In s t) (hok : Ok nd In s)
    (hv : Valid s) (hc : Climbing s) (h : Remembers s) : Remembers t := by
  intro b view chain hb
  rcases ha.mem_trace hb with hb | ⟨-, rfl, rfl, -⟩
  · obtain ⟨hle, hover, later, hch, hlater⟩ := h b view chain hb
    refine ⟨le_trans hle ha.curView_le, hover, ?_⟩
    rcases ha.chain_cases with heq | ⟨qc, x, hk, hx, hcur, -, rfl⟩
    · exact ⟨later, heq.trans hch, hlater⟩
    · -- the certificate is not of a view that is over
      obtain ⟨c, hacc⟩ := hc.accepted _ x hx
      have hview := hv qc x c hk hacc (hok.stored _ x hx).1
      refine ⟨later ++ [[x]], by rw [hch, List.append_assoc], fun l hl y hy => ?_⟩
      rcases List.mem_append.1 hl with hl | hl
      · exact hlater l hl y hy
      · rw [List.mem_singleton.1 hl] at hy
        rw [List.mem_singleton.1 hy]
        omega
  · refine ⟨ha.curView_le, hc.below, ?_⟩
    rcases ha.chain_cases with heq | ⟨qc, x, hk, hx, hcur, -, rfl⟩
    · exact ⟨[], by rw [heq, List.append_nil], by simp⟩
    · obtain ⟨c, hacc⟩ := hc.accepted _ x hx
      have hview := hv qc x c hk hacc (hok.stored _ x hx).1
      refine ⟨[[x]], rfl, fun l hl y hy => ?_⟩
      rw [List.mem_singleton.1 hl] at hy
      rw [List.mem_singleton.1 hy]
      omega

/-- A block that ended a chain the replica voted under is not above the end of another one, if its view was over
when the replica voted under that one. -/
theorem Remembers.le_last {s : Streamlet} (h : Remembers s) (hs : Shaped s.notarizedChain) {b b' : Block}
    {view view' : ℤ} {chain chain' : List (List Block)} (hb : .voted b view chain ∈ s.trace)
    (hb' : .voted b' view' chain' ∈ s.trace) {z z' : Block} (hz : chain.getLast? = some [z])
    (hz' : chain'.getLast? = some [z']) (hlt : z.view < view') : z.view ≤ z'.view := by
  obtain ⟨-, -, later, hch, -⟩ := h b view chain hb
  obtain ⟨-, -, later', hch', hlater'⟩ := h b' view' chain' hb'
  have hmem : [z] ∈ chain' ++ later' := by
    rw [← hch', hch]
    exact List.mem_append_left _ (List.mem_of_getLast? hz)
  rcases List.mem_append.1 hmem with hin | hin
  · have hpre : Shaped chain' := hs.of_prefix (hch' ▸ List.prefix_append chain' later')
    obtain ⟨y, hy, hle⟩ := hpre.le_last hin (List.mem_singleton_self z)
    rw [hz'] at hy
    cases hy
    exact hle
  · have := hlater' [z] hin z (List.mem_singleton_self z)
    omega

/-! ### Blocks that are safe to commit -/

/-- A block and a child of it of the next view, both with certificates. -/
structure TwoChain (cf : Config) (members : List NodeID) (w : NodeID → Streamlet) (g l : Block) : Prop where
  parent : ParentOf (Proposed w) g l
  certified : Supported cf members w g ∧ Supported cf members w l
  next : g.view + 1 = l.view
  late : 2 < l.view

section Runs

variable {depth : ℕ} (hw : (streamletSteps cf members depth).Reachable w) (hid : CollisionFree (Proposed w))
include hw hid

theorem remembers_of_reachable (i : NodeID) : Remembers (w i) := by
  refine hw.invariant (P := fun w => CollisionFree (Proposed w)) (J := fun _ _ s => Remembers s)
    (fun _ b view chain hb => by simp [streamletNet, Streamlet.new] at hb)
    (fun ha => (Act.later ha).collisionFree) ?_ (fun _ h => h) hid i
  intro w j t hr hj hid ha h
  have hid' := (Act.later ha).collisionFree hid
  exact Act.remembers ha (hr.ok j) (valid_of_reachable hr hid' j) (climbing_of_reachable hr hid' j) h

/-- A vote in a view above 2 is for a child of the last block of the chain, which has a certificate. -/
theorem parent_of_vote {c : Block} {view : ℤ} {chain : List (List Block)}
    (hc : .voted c view chain ∈ (w i).trace) (h2 : 2 < c.view) :
    ∃ a, chain.getLast? = some [a] ∧ ParentOf (Proposed w) a c ∧ Supported cf members w a ∧ a.view < c.view := by
  obtain ⟨-, hprop, hle, hmay⟩ := (sound_of_reachable hw hid).voted i c view chain hc
  obtain ⟨-, hover, later, hch, -⟩ := remembers_of_reachable hw hid i c view chain hc
  obtain ⟨l, hl, a, hal, hprev⟩ := hmay.resolve_left (by omega)
  have hmem : l ∈ (w i).notarizedChain := hch ▸ List.mem_append_left _ (List.mem_of_getLast? hl)
  have hsup := supported_of_chain hw hid hmem hal
  obtain ⟨a', rfl⟩ := (climbing_of_reachable hw hid i).shaped.single l hmem
  obtain rfl := List.mem_singleton.1 hal
  obtain ⟨qc, hq⟩ := hsup
  have hlt := hover _ (List.mem_of_getLast? hl) a hal
  exact ⟨a, hl, ⟨hq.proposed, hprop, hprev.symm⟩, ⟨qc, hq⟩, by omega⟩

/-- The chain down from a block with a certificate does not step over a block that has a child of the next
view. -/
theorem not_stepped_over (he : cf.elec.Consistent members) (hn : members.length = cf.n) {g l c : Block}
    (h2 : TwoChain cf members w g l) (hc : Supported cf members w c) (hv : g.view ≤ c.view) :
    c = g ∨ ∃ a, ParentOf (Proposed w) a c ∧ Supported cf members w a ∧ g.view ≤ a.view ∧ a.view < c.view := by
  obtain ⟨qc, hq⟩ := hc
  obtain ⟨ql, hql⟩ := h2.certified.2
  have hnext := h2.next
  have hlate := h2.late
  by_cases hle : c.view ≤ l.view
  · -- one block for each view: `c` is one of the two
    have huniq := fun {x : Block} (hx : Proposed w x) => proposed_unique hw he hid hq.proposed hx
    rcases (by omega : c.view = g.view ∨ c.view = l.view) with h | h
    · exact Or.inl (huniq h2.parent.parent h)
    · rw [huniq h2.parent.child h]
      exact Or.inr ⟨g, h2.parent, h2.certified.1, le_refl _, by omega⟩
  right
  rcases origin_of_reachable hw hid hq.proposed with h1 | ⟨a, hp, ha⟩ | ⟨q, hquorum, hlater⟩
  · omega
  · -- the leader had a block of the view before, and so had the voters
    obtain ⟨i, hi, -⟩ := hq.quorum.inter hn hq.quorum
    obtain ⟨view, chain, hvote⟩ := hq.voted i hi
    obtain ⟨a', -, hp', hsup, hlt⟩ := parent_of_vote hw hid hvote (by omega)
    obtain rfl := hp.unique hid hp'
    exact ⟨a, hp, hsup, by omega, hlt⟩
  · -- one of those that timed out voted for both blocks
    obtain ⟨i, hi, hil, hic⟩ := hquorum.inter_inter hn hql.quorum hq.quorum
    obtain ⟨view, chain, hvote⟩ := hq.voted i hic
    obtain ⟨viewl, chainl, hvotel⟩ := hql.voted i hil
    obtain ⟨a, hlast, hp, hsup, hlt⟩ := parent_of_vote hw hid hvote (by omega)
    obtain ⟨g', hlastl, hpl, -⟩ := parent_of_vote hw hid hvotel (by omega)
    obtain rfl := hpl.unique hid h2.parent
    have hview := (hlater i hi).2 view chain hvote
    refine ⟨a, hp, hsup, ?_, hlt⟩
    exact (remembers_of_reachable hw hid i).le_last (climbing_of_reachable hw hid i).shaped hvotel hvote hlastl
      hlast (by omega)

/-- **Blocks with certificates extend every block of a two-chain that is not above them.** -/
theorem supported_extends (he : cf.elec.Consistent members) (hn : members.length = cf.n) {g l c : Block}
    (h2 : TwoChain cf members w g l) (hc : Supported cf members w c) (hv : g.view ≤ c.view) :
    Ancestor (Proposed w) g c := by
  -- views go down to that of `g` along the chain
  have hacc : ∀ c, Acc (fun p c => ParentOf (Proposed w) p c ∧ g.view ≤ p.view ∧ p.view < c.view) c := by
    intro c
    refine (Subrelation.wf (r := InvImage (· < ·) fun b : Block => (b.view - g.view).toNat) ?_
      (InvImage.wf _ Nat.lt_wfRel.wf)).apply c
    rintro p c ⟨-, hle, hlt⟩
    show (p.view - g.view).toNat < (c.view - g.view).toNat
    omega
  refine Chain.Ancestor.mono (fun p c h => h.1) (Chain.ancestor_of_certified Block.view
    (C := Supported cf members w) (fun c _ => hacc c) (fun c hc hv => ?_) hc hv)
  rcases not_stepped_over hw hid he hn h2 hc hv with rfl | ⟨a, hp, hsup, hle, hlt⟩
  · exact Or.inl (Chain.Ancestor.refl c)
  · exact Or.inr ⟨a, ⟨hp, hle, hlt⟩, hsup, hle⟩

/-- What a commit rests on, and what it delivers. -/
theorem committed_cases {g : Block} {chain : List (List Block)} {batch : List Block}
    (hmem : .committed g chain batch ∈ (w i).trace) :
    (∃ before x l, chain = before ++ [[x], [g], [l]] ∧ x.view + 1 = g.view ∧ g.view + 1 = l.view ∧
      chain <+: (w i).notarizedChain) ∧ ∀ y ∈ batch, Ancestor (Proposed w) y g := by
  induction hw generalizing i with
  | start => simp [streamletNet, Streamlet.new] at hmem
  | @step w j t hr hj ha ih =>
    have hlater : Later w (Function.update w j t) := Act.later ha
    have hid' := hlater.collisionFree hid
    suffices h : (∃ before x l, chain = before ++ [[x], [g], [l]] ∧ x.view + 1 = g.view ∧
        g.view + 1 = l.view ∧ chain <+: (w i).notarizedChain) ∧ ∀ y ∈ batch, Ancestor (Proposed w) y g by
      obtain ⟨⟨before, x, l, hch, hx, hg, hpre⟩, hanc⟩ := h
      exact ⟨⟨before, x, l, hch, hx, hg, hpre.trans (hlater.chain i)⟩, fun y hy => (hanc y hy).mono hlater.proposed⟩
    rcases Net.update_cases (P := fun s : Streamlet => .committed g chain batch ∈ s.trace) hmem
      with ⟨rfl, hc⟩ | hc
    · rcases Act.mem_trace ha hc with hc | ⟨before, x, l, forked, bc, rfl, hch, hx, hg, hd⟩
      · exact ih hid' hc
      refine ⟨⟨before, x, l, hch, hx, hg, List.prefix_refl _⟩, ?_⟩
      obtain ⟨g', hg', habove, -, -⟩ := hd.done batch forked rfl
      have hst : ∀ x b, (w i).bc.forrest.getVertex x = some b → b.id = x ∧ Proposed w b :=
        fun x b hx => ⟨((hr.ok i).stored x b hx).1, ((hr.ok i).stored x b hx).2.sent⟩
      -- the stored block with the id of `g` is `g`
      obtain ⟨qc, hq⟩ := supported_of_chain hr hid' (l := [g]) (i := i) (by rw [hch]; simp)
        (List.mem_singleton_self g)
      obtain rfl := hid'.inj (hst _ _ hg').2 hq.proposed (hst _ _ hg').1
      exact habove.ancestor hst (hst _ _ hg').2
    · exact ih hid' hc

omit hid in
theorem mem_committedBlocks {x : Block} (hx : x ∈ (w i).committedBlocks) :
    ∃ g chain batch, .committed g chain batch ∈ (w i).trace ∧ x ∈ batch := by
  refine hw.keeps (J := fun _ s => ∀ x ∈ s.committedBlocks, ∃ g chain batch,
    .committed g chain batch ∈ s.trace ∧ x ∈ batch) ?_ ?_ i x hx
  · intro i x hx
    simp [streamletNet, Streamlet.new] at hx
  · intro i In s t ha ih x hx
    rcases Act.mem_committedBlocks ha hx with hx | hx
    · obtain ⟨g, chain, batch, hc, hb⟩ := ih x hx
      exact ⟨g, chain, batch, (Act.subset ha).2 hc, hb⟩
    · exact hx

end Runs

/-- Whenever the replica committed a block, the last block of its notarized chain was a child of it. -/
def LinkedCommits (trace : List Entry) : Prop :=
  ∀ g chain batch l, .committed g chain batch ∈ trace → chain.getLast? = some [l] → l.prevID = g.id

/-- A commit with a link rests on a two-chain. -/
theorem twoChain_of_committed {depth : ℕ} (hw : (streamletSteps cf members depth).Reachable w)
    (hid : CollisionFree (Proposed w)) (hl : LinkedCommits (w i).trace) {g : Block} {chain : List (List Block)}
    {batch : List Block} (hmem : .committed g chain batch ∈ (w i).trace) : ∃ l, TwoChain cf members w g l := by
  obtain ⟨⟨before, x, l, rfl, hx, hg, hpre⟩, -⟩ := committed_cases hw hid hmem
  have hsup : ∀ {b : Block}, [b] ∈ before ++ [[x], [g], [l]] → Supported cf members w b := by
    intro b hb
    exact supported_of_chain hw hid (hpre.subset hb) (List.mem_singleton_self b)
  obtain ⟨qx, hqx⟩ := hsup (b := x) (by simp)
  obtain ⟨qg, hqg⟩ := hsup (b := g) (by simp)
  obtain ⟨ql, hql⟩ := hsup (b := l) (by simp)
  have h1 := one_le_view_of_proposed hw hid hqx.proposed
  have hlink := hl g _ batch l hmem (by simp)
  exact ⟨l, ⟨hqg.proposed, hql.proposed, hlink.symm⟩, ⟨⟨qg, hqg⟩, ql, hql⟩, hg, by omega⟩

/-- **Agreement.**  In every run of honest replicas in which each commit of a block was made when the last block
of the notarized chain was a child of it, any two blocks that any two replicas committed lie on one chain. -/
theorem agreement_of_linked_commits (cf : Config) (members : List NodeID) (depth : ℕ)
    (hn : members.length = cf.n) (he : cf.elec.Consistent members) (net : NodeID → Net.Proc Streamlet)
    (hr : (streamletNet cf members depth).Reachable net) (hid : CollisionFree (Proposed (Net.states net)))
    (hl : ∀ i, LinkedCommits (net i).st.trace) (i j : NodeID) (x y : Block)
    (hx : x ∈ (net i).st.committedBlocks) (hy : y ∈ (net j).st.committedBlocks) :
    Ancestor (Proposed (Net.states net)) x y ∨ Ancestor (Proposed (Net.states net)) y x := by
  have hw : (streamletSteps cf members depth).Reachable (Net.states net) := .of_reachable hr
  obtain ⟨g, chain, batch, hc, hxb⟩ := mem_committedBlocks hw hx
  obtain ⟨g', chain', batch', hc', hyb⟩ := mem_committedBlocks hw hy
  have hanc := (committed_cases hw hid hc).2
  have hanc' := (committed_cases hw hid hc').2
  refine Chain.comparable_of_heads Block.view (C := Supported cf members (Net.states net))
    (H := fun g => ∃ l, TwoChain cf members (Net.states net) g l)
    (fun _ _ _ h h' => h.unique hid h') ?_ ?_ (twoChain_of_committed hw hid (hl i) hc)
    (twoChain_of_committed hw hid (hl j) hc') (hanc x hxb) (hanc' y hyb)
  · rintro g ⟨l, h2⟩
    exact h2.certified.1
  · rintro g ⟨l, h2⟩ c hc hv
    exact supported_extends hw hid he hn h2 hc hv

/-! ### Runs -/

/-- The blocks that node 1 has proposed. -/
def blocksOf (net : NodeID → Net.Proc Streamlet) : List Block :=
  (proposals (net "1").st.trace).filterMap blockOf

/-- All blocks that were sent are among those of node 1, which have distinct ids. -/
def OneProposer (net : NodeID → Net.Proc Streamlet) : Prop :=
  (∀ b ∈ blocksSent Streamlet.sent FourNodes.members (Net.states net), b ∈ blocksOf net) ∧
    ((blocksOf net).map Block.id).Nodup ∧ ∀ b ∈ blocksOf net, b.id ≠ zeroID

instance (net : NodeID → Net.Proc Streamlet) : Decidable (OneProposer net) :=
  inferInstanceAs (Decidable (_ ∧ _ ∧ _))

theorem OneProposer.mem {leader : ℤ → NodeID} {depth : ℕ} {net : NodeID → Net.Proc Streamlet}
    (h : OneProposer net) (hr : (streamletNet (FourNodes.config leader) FourNodes.members depth).Reachable net)
    (b : Block) (hb : Proposed (Net.states net) b) : b ∈ blocksOf net := by
  have hw : (streamletSteps (FourNodes.config leader) FourNodes.members depth).Reachable (Net.states net) :=
    .of_reachable hr
  refine h.1 b (mem_blocksSent (fun i hi => ?_) hb)
  rw [hw.eq_init hi]
  rfl

/-- `LinkedCommits` as a test. -/
def linkedCommits (trace : List Entry) : Bool :=
  trace.all fun e => match e with
    | .committed g chain _ => chain.getLast?.all fun l => l.all fun b => decide (b.prevID = g.id)
    | _ => true

theorem linkedCommits_of_test {trace : List Entry} (h : linkedCommits trace = true) : LinkedCommits trace := by
  intro g chain batch l hm hl
  have ht := List.all_eq_true.1 h _ hm
  simpa [hl] using ht

/-- Node 1 proposes in views 1 to 3, and nodes 1, 2 and 3 exchange their votes. -/
def threeViews : List (Net.System.Sched NodeID Event) :=
  [newView "1", .pass "1" 0 "2", .pass "1" 0 "3", .pass "2" 1 "1", .pass "3" 1 "1",
    .pass "1" 2 "2", .pass "3" 1 "2", .pass "1" 2 "3", .pass "2" 1 "3",
    newView "1", .pass "1" 3 "2", .pass "1" 3 "3", .pass "2" 3 "1", .pass "3" 3 "1",
    .pass "1" 5 "2", .pass "3" 3 "2", .pass "1" 5 "3", .pass "2" 3 "3",
    newView "1", .pass "1" 6 "2", .pass "1" 6 "3", .pass "2" 5 "1", .pass "3" 5 "1"]

/-- Node 1 commits the first two blocks. -/
theorem agreement_of_linked_commits_threeViews :
    ∃ net, (streamletNet (FourNodes.config fun _ => "1") FourNodes.members 9).Reachable net ∧
      CollisionFree (Proposed (Net.states net)) ∧ (∀ i, LinkedCommits (net i).st.trace) ∧
      ∃ x ∈ (net "1").st.committedBlocks, ∃ y ∈ (net "1").st.committedBlocks, x ≠ y ∧
        (Ancestor (Proposed (Net.states net)) x y ∨ Ancestor (Proposed (Net.states net)) y x) := by
  obtain ⟨net, hr, htest⟩ :=
    (streamletNet (FourNodes.config fun _ => "1") FourNodes.members 9).exists_reachable threeViews
      (fun net => decide (OneProposer net ∧
        (∀ i ∈ FourNodes.members, linkedCommits (net i).st.trace = true) ∧
        ∃ x ∈ (net "1").st.committedBlocks, ∃ y ∈ (net "1").st.committedBlocks, x ≠ y)) (by decide_cbv)
  obtain ⟨hone, hl, x, hx, y, hy, hxy⟩ := of_decide_eq_true htest
  have hw : (streamletSteps (FourNodes.config fun _ => "1") FourNodes.members 9).Reachable (Net.states net) :=
    .of_reachable hr
  have hid := collisionFree_of_list (hone.mem hr) hone.2
  have hlinked : ∀ i, LinkedCommits (net i).st.trace := by
    intro i
    by_cases hi : i ∈ FourNodes.members
    · exact linkedCommits_of_test (hl i hi)
    · intro g chain batch l hm
      have hinit : (net i).st = Streamlet.new 4 := hw.eq_init hi
      rw [hinit] at hm
      cases hm
  exact ⟨net, hr, hid, hlinked, x, hx, y, hy, hxy,
    agreement_of_linked_commits _ _ 9 rfl (FourNodes.consistent _ _) net hr hid hlinked "1" "1" x y hx hy⟩

/-- The timer of a node fires. -/
def timer (i : NodeID) : Net.System.Sched NodeID Event := .fire i (.replica .timer)

/-- Node 1 proposes in view 1, and all notarize the block.  It proposes in view 2, and nodes 1, 2 and 3 vote, but
only node 4 gets the votes; the others time out, and node 1 proposes in view 3 on the block of view 1.  Node 4
notarizes the block of view 2 and then that of view 3.  In view 4 node 1 proposes on the block of view 3, and
node 4 notarizes that, too. -/
def stepsAside : List (Net.System.Sched NodeID Event) :=
  [newView "1", .pass "1" 0 "2", .pass "1" 0 "3", .pass "1" 0 "4",
    .pass "2" 1 "1", .pass "3" 1 "1", .pass "1" 2 "2", .pass "3" 1 "2", .pass "1" 2 "3", .pass "2" 1 "3",
    .pass "1" 2 "4", .pass "2" 1 "4",
    newView "1", .pass "1" 3 "2", .pass "1" 3 "3", .pass "1" 3 "4",
    timer "1", timer "2", timer "3", .pass "2" 4 "1", .pass "3" 4 "1", .fire "1" (.task 0),
    newView "1", .pass "1" 7 "2", .pass "1" 7 "3", .pass "1" 7 "4",
    .pass "1" 5 "4", .pass "2" 3 "4",
    .pass "1" 9 "4", .pass "2" 6 "4",
    .pass "2" 6 "1", .pass "3" 6 "1", .pass "1" 9 "2", .pass "3" 6 "2", .pass "1" 9 "3", .pass "2" 6 "3",
    newView "1", .pass "1" 10 "2", .pass "1" 10 "3", .pass "1" 10 "4",
    .pass "1" 12 "4", .pass "2" 8 "4"]

/-- **A neighbour in the chain is committed.**  Node 4 commits the block of view 2, and then that of view 3, which
is also a child of the first block. -/
theorem neighbour_committed :
    ∃ net, (streamletNet (FourNodes.config fun _ => "1") FourNodes.members 9).Reachable net ∧
      CollisionFree (Proposed (Net.states net)) ∧
      ∃ x ∈ (net "4").st.committedBlocks, ∃ y ∈ (net "4").st.committedBlocks,
        ¬ Ancestor (Proposed (Net.states net)) x y ∧ ¬ Ancestor (Proposed (Net.states net)) y x := by
  obtain ⟨net, hr, htest⟩ :=
    (streamletNet (FourNodes.config fun _ => "1") FourNodes.members 9).exists_reachable stepsAside
      (fun net => decide (OneProposer net ∧
        (∀ c ∈ blocksOf net, c.id ∈ [2, 1] → ∀ p ∈ blocksOf net, p.id = c.prevID → p.id ∈ [2, 1]) ∧
        (∀ c ∈ blocksOf net, c.id ∈ [3, 1] → ∀ p ∈ blocksOf net, p.id = c.prevID → p.id ∈ [3, 1]) ∧
        (∃ x ∈ (net "4").st.committedBlocks, x.id = 2) ∧ ∃ y ∈ (net "4").st.committedBlocks, y.id = 3))
      (by decide_cbv)
  obtain ⟨hone, h2, h3, ⟨x, hx, hx2⟩, y, hy, hy3⟩ := of_decide_eq_true htest
  have hbs := hone.mem hr
  refine ⟨net, hr, collisionFree_of_list hbs hone.2, x, hx, y, hy, ?_, ?_⟩
  · exact not_ancestor_of_ids hbs [3, 1] h3 (by simp [hy3]) (by simp [hx2])
  · exact not_ancestor_of_ids hbs [2, 1] h2 (by simp [hx2]) (by simp [hy3])

end Streamlet

end Bamboo
