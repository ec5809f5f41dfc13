import Bamboo.Commits
import Bamboo.FourNodes
import Bamboo.Tidy

/-!
# Blocks in a row

The good case of the protocols: one block in each view, each with a certificate for the block of the view
before.  A forest that is given the blocks of a row in the order of their views, and commits some of them on
the way, holds the blocks from the last committed one on.

* `idAt`, `CertOf`, `Row`: the blocks `b 1`, …, `b k` and their certificates;
* `FourNodes.row`: there are rows of any length;
* `Spine`: the forest that has inserted the blocks up to view `v` and committed those up to view `low`;
* `Spine.addVertex`: the next block;
* `Spine.commitBlock`: a commit returns the blocks after the last committed one, and forks nothing.
-/

namespace Bamboo

/-- The id of the block of view `v`; view 0 stands for no block. -/
def idAt (b : ℕ → Block) (v : ℕ) : ℕ := if v = 0 then zeroID else (b v).id

/-- `qc` is a certificate for the block of view `v` that everyone can verify. -/
structure CertOf (cf : Config) (b : ℕ → Block) (v : ℕ) (qc : QC) : Prop where
  view : qc.view = v
  blockID : qc.blockID = idAt b v
  verified : verifyQC cf qc = .ok true

/-- The blocks `b 1`, …, `b k`: each is proposed by the leader of its view, on a certificate for the block
before, under an id of its own. -/
structure Row (cf : Config) (b : ℕ → Block) (k : ℕ) : Prop where
  view : ∀ v, 1 ≤ v → v ≤ k → (b v).view = v
  cert : ∀ v, v + 1 ≤ k → ∃ qc, (b (v + 1)).qc = some qc ∧ CertOf cf b v qc
  prevID : ∀ v, v + 1 ≤ k → (b (v + 1)).prevID = idAt b v
  leader : ∀ v, 1 ≤ v → v ≤ k → cf.elec.isLeader (b v).proposer v = true
  signed : ∀ v, 1 ≤ v → v ≤ k → ∃ r, pubVerify cf (b v).sig (b v).id (b v).proposer = .ok r
  inj : ∀ v w, v ≤ k → w ≤ k → idAt b v = idAt b w → v = w

variable {cf : Config} {b b' : ℕ → Block} {k v w low : ℕ}

theorem idAt_of_pos (hv : 1 ≤ v) : idAt b v = (b v).id := if_neg (by omega)

theorem certOf_initial (cf : Config) (b : ℕ → Block) : CertOf cf b 0 .initial := ⟨rfl, rfl, rfl⟩

theorem CertOf.checkQC {nd : Node} {qc : QC} (h : CertOf nd.toConfig b v qc) : checkQC nd qc = .ok true := by
  unfold Bamboo.checkQC
  split_ifs
  · exact h.verified
  · rfl

/-- Signatures that verify one by one make a certificate that verifies. -/
theorem verifyQuorumSignature_of_pubVerify {sigs : List Signature} {signers : List NodeID} {id : ℕ}
    (h : List.Forall₂ (fun sig i => pubVerify cf sig id i = .ok true) sigs signers) :
    verifyQuorumSignature cf sigs id signers = .ok true := by
  induction h with
  | nil => rfl
  | cons hs _ ih => simp only [verifyQuorumSignature, hs, bind, Except.bind, if_true, ih]

/-! ### A view event -/

namespace Safety

variable {σ : Type} {sf : Safety σ} {nd : Node} {s s' t : σ} {view : ℤ} {rest : List ℤ}
  {payload : List Transaction} {pBatch : PBatch} {c : Block}

/-- The leader of a view proposes when it enters the view. -/
theorem processNewView_lead (hq : (sf.pm s).newViewChan = view :: rest) (hl : nd.elec.isLeader nd.id view = true)
    (hc : (if 1 < view then sf.makePProposal view pBatch else sf.makeProposal view payload)
      (sf.setPm { sf.pm s with newViewChan := rest } s) = .ok c s')
    (hb : sf.processBlock c (sf.send ⟨none, .block c⟩ s') = .ok () t) :
    sf.processNewView nd payload pBatch s = .ok () t := by
  unfold processNewView
  rw [Prog.get_bind_apply, hq]
  dsimp only
  rw [Prog.set_bind_apply, if_neg (by simp [hl])]
  unfold proposeBlock
  rw [Prog.bind_apply_ok hc, Prog.modify_bind_apply]
  exact hb

/-- The others only take note of it. -/
theorem processNewView_follow (hq : (sf.pm s).newViewChan = view :: rest)
    (hl : nd.elec.isLeader nd.id view = false) :
    sf.processNewView nd payload pBatch s = .ok () (sf.setPm { sf.pm s with newViewChan := rest } s) := by
  unfold processNewView
  rw [Prog.get_bind_apply, hq]
  dsimp only
  rw [Prog.set_bind_apply, if_pos hl]
  rfl

end Safety

/-! ### Facts about rows -/

namespace Row

variable (h : Row cf b k)
include h

theorem mono (hw : w ≤ k) : Row cf b w where
  view := fun v h1 hv => h.view v h1 (by omega)
  cert := fun v hv => h.cert v (by omega)
  prevID := fun v hv => h.prevID v (by omega)
  leader := fun v h1 hv => h.leader v h1 (by omega)
  signed := fun v h1 hv => h.signed v h1 (by omega)
  inj := fun u v hu hv => h.inj u v (by omega) (by omega)

theorem level (h1 : 1 ≤ v) (hv : v ≤ k) : (b v).level = v := by
  rw [Block.level, h.view v h1 hv, uint64, if_pos (Int.natCast_nonneg v), Int.toNat_natCast]

theorem parent (hv : v + 1 ≤ k) : (b (v + 1)).parent = some (idAt b v, v) := by
  obtain ⟨qc, hqc, hcert⟩ := h.cert v hv
  rw [Block.parent, hqc, Option.map_some, hcert.view, h.prevID v hv, uint64,
    if_pos (Int.natCast_nonneg v), Int.toNat_natCast]

theorem qc_ne_none (h1 : 1 ≤ v) (hv : v ≤ k) : (b v).qc ≠ none := by
  obtain ⟨u, rfl⟩ := Nat.exists_eq_add_of_le' h1
  obtain ⟨qc, hqc, -⟩ := h.cert u hv
  rw [hqc]
  exact Option.some_ne_none qc

theorem id_inj (h1 : 1 ≤ v) (hv : v ≤ k) (h1' : 1 ≤ w) (hw : w ≤ k) (hid : (b v).id = (b w).id) : v = w :=
  h.inj v w hv hw (by rw [idAt_of_pos h1, idAt_of_pos h1', hid])

/-- One more block on top. -/
theorem extend {c : Block} {qc : QC} (hview : c.view = ((k + 1 : ℕ) : ℤ)) (hqc : c.qc = some qc)
    (hcert : CertOf cf b k qc) (hprev : c.prevID = idAt b k)
    (hlead : cf.elec.isLeader c.proposer ((k + 1 : ℕ) : ℤ) = true)
    (hsig : ∃ r, pubVerify cf c.sig c.id c.proposer = .ok r) (hid : ∀ v, v ≤ k → c.id ≠ idAt b v) :
    Row cf (Function.update b (k + 1) c) (k + 1) := by
  have hnew : Function.update b (k + 1) c (k + 1) = c := Function.update_self ..
  have hold : ∀ v, v ≤ k → Function.update b (k + 1) c v = b v := fun v hv =>
    Function.update_of_ne (by omega) ..
  have hidnew : idAt (Function.update b (k + 1) c) (k + 1) = c.id := by rw [idAt_of_pos (by omega), hnew]
  have hids : ∀ v, v ≤ k → idAt (Function.update b (k + 1) c) v = idAt b v := fun v hv => by
    rw [idAt, idAt, hold v hv]
  have hcerts : ∀ {v qc}, v ≤ k → CertOf cf b v qc → CertOf cf (Function.update b (k + 1) c) v qc :=
    fun hv h => ⟨h.view, h.blockID.trans (hids _ hv).symm, h.verified⟩
  refine ⟨fun v h1 hv => ?_, fun v hv => ?_, fun v hv => ?_, fun v h1 hv => ?_, fun v h1 hv => ?_,
    fun v w hv hw => ?_⟩
  · rcases Nat.eq_or_lt_of_le hv with rfl | hlt
    · rwa [hnew]
    · rw [hold v (by omega)]
      exact h.view v h1 (by omega)
  · rcases Nat.eq_or_lt_of_le hv with heq | hlt
    · obtain rfl : v = k := by omega
      exact ⟨qc, hnew.symm ▸ hqc, hcerts le_rfl hcert⟩
    · obtain ⟨qc', hqc', hcert'⟩ := h.cert v (by omega)
      exact ⟨qc', by rwa [hold _ (by omega)], hcerts (by omega) hcert'⟩
  · rw [hids v (by omega)]
    rcases Nat.eq_or_lt_of_le hv with heq | hlt
    · obtain rfl : v = k := by omega
      rw [hnew, hprev]
    · rw [hold _ (by omega)]
      exact h.prevID v (by omega)
  · rcases Nat.eq_or_lt_of_le hv with rfl | hlt
    · rwa [hnew]
    · rw [hold v (by omega)]
      exact h.leader v h1 (by omega)
  · rcases Nat.eq_or_lt_of_le hv with rfl | hlt
    · rwa [hnew]
    · rw [hold v (by omega)]
      exact h.signed v h1 (by omega)
  · rcases Nat.eq_or_lt_of_le hv with rfl | hv' <;> rcases Nat.eq_or_lt_of_le hw with rfl | hw'
    · exact fun _ => rfl
    · rw [hidnew, hids w (by omega)]
      exact fun heq => absurd heq (hid w (by omega))
    · rw [hidnew, hids v (by omega)]
      exact fun heq => absurd heq.symm (hid v (by omega))
    · rw [hids v (by omega), hids w (by omega)]
      exact h.inj v w (by omega) (by omega)

/-- The parent's id determines the view before. -/
theorem prevID_eq (h1 : 1 ≤ v) (hv : v ≤ k) (hw : w ≤ k) (hid : (b v).prevID = idAt b w) : v = w + 1 := by
  obtain ⟨u, rfl⟩ := Nat.exists_eq_add_of_le' h1
  rw [h.prevID u hv] at hid
  rw [h.inj u w (by omega) hw hid]

end Row

namespace FourNodes

/-- The blocks of node 1 in a row, where it leads all views. -/
def rowBlock (v : ℕ) : Block := block v (if v ≤ 1 then .initial else certificate ((v : ℤ) - 1))

theorem idAt_rowBlock (v : ℕ) : idAt rowBlock v = v := by
  unfold idAt
  split_ifs with h
  · rw [h]
    rfl
  · show (v : ℤ).toNat = v
    omega

theorem pubVerify_signature (leader : ℤ → NodeID) {i : NodeID} {j : ℕ} (hi : keyIndex (config leader) i = .ok j)
    (data : ℕ) : pubVerify (config leader) (signature j data) data i = .ok true := by
  unfold pubVerify
  rw [hi]
  simp [bind, Except.bind, toECDSA, signature, config, pure, Except.pure]

/-- **Node 1's blocks are in a row.** -/
theorem row (k : ℕ) : Row (config fun _ => "1") rowBlock k where
  view := fun v _ _ => rfl
  cert := fun v _ => by
    refine ⟨_, rfl, ?_⟩
    rcases Nat.eq_zero_or_pos v with rfl | hv
    · exact certOf_initial _ _
    · rw [if_neg (by omega), show ((v + 1 : ℕ) : ℤ) - 1 = v by push_cast; omega]
      refine ⟨rfl, ?_, verifyQuorumSignature_of_pubVerify ?_⟩
      · rw [idAt_rowBlock]
        show (v : ℤ).toNat = v
        omega
      · exact .cons (pubVerify_signature _ rfl _) (.cons (pubVerify_signature _ rfl _)
          (.cons (pubVerify_signature _ rfl _) .nil))
  prevID := fun v _ => by
    rw [idAt_rowBlock]
    show QC.blockID (if v + 1 ≤ 1 then .initial else certificate (((v + 1 : ℕ) : ℤ) - 1)) = v
    split_ifs with h
    · show zeroID = v
      rw [show v = 0 by omega]
      rfl
    · show (((v + 1 : ℕ) : ℤ) - 1).toNat = v
      omega
  leader := fun v _ _ => rfl
  signed := fun v _ _ => ⟨true, pubVerify_signature _ (i := "1") rfl _⟩
  inj := fun v w _ _ h => by rwa [idAt_rowBlock, idAt_rowBlock] at h

end FourNodes

namespace LevelledForest

variable {f t : LevelledForest}

/-- The forest has inserted the blocks up to view `v` and committed those up to view `low`. -/
structure Spine (b : ℕ → Block) (v low : ℕ) (f : LevelledForest) : Prop where
  tidy : f.Tidy
  indexed : f.Indexed fun x l => l ≤ v ∧ x = idAt b l
  lowest : f.lowestLevel = low
  stored : ∀ x c, f.getVertex x = some c ↔ ∃ w, 1 ≤ w ∧ low ≤ w ∧ w ≤ v ∧ x = (b w).id ∧ c = b w

theorem spine_new (b : ℕ → Block) : new.Spine b 0 0 where
  tidy := tidy_new
  indexed := indexed_new
  lowest := rfl
  stored := fun x c => by
    constructor
    · intro hx
      simp [new, getVertex] at hx
    · rintro ⟨w, h1, -, h0, -⟩
      omega

theorem Spine.congr (h : f.Spine b v low) (hb : ∀ w, 1 ≤ w → w ≤ v → b' w = b w) : f.Spine b' v low where
  tidy := h.tidy
  indexed := h.indexed.mono fun x l hl => ⟨hl.1, by
    rw [hl.2, idAt, idAt]
    split_ifs with h0
    · rfl
    · rw [hb l (by omega) hl.1]⟩
  lowest := h.lowest
  stored := fun x c => by
    rw [h.stored]
    constructor
    · rintro ⟨w, h1, hlow, hw, hrest⟩
      exact ⟨w, h1, hlow, hw, by rwa [hb w h1 hw]⟩
    · rintro ⟨w, h1, hlow, hw, hrest⟩
      exact ⟨w, h1, hlow, hw, by rwa [hb w h1 hw] at hrest⟩

theorem Spine.getVertex (h : f.Spine b v low) (h1 : 1 ≤ w) (hlow : low ≤ w) (hw : w ≤ v) :
    f.getVertex (b w).id = some (b w) :=
  (h.stored _ _).2 ⟨w, h1, hlow, hw, rfl, rfl⟩

/-- The id of view 0 and the ids of later views are not stored. -/
theorem Spine.getVertex_idAt_of_lt (h : f.Spine b v low) (hr : Row cf b k) (hv : v ≤ k) (hw : w ≤ k)
    (hout : w = 0 ∨ w < low ∨ v < w) : f.getVertex (idAt b w) = none := by
  rw [Option.eq_none_iff_forall_ne_some]
  intro c hc
  obtain ⟨u, h1, hlow, hu, hid, -⟩ := (h.stored _ _).1 hc
  have := hr.inj w u hw (by omega) (by rw [hid, idAt_of_pos h1])
  omega

/-- **The next block** fits, and is stored. -/
theorem Spine.addVertex (h : f.Spine b v low) (hr : Row cf b (v + 1)) (hlow : low ≤ v + 1) :
    ∃ t, LevelledForest.addVertex (b (v + 1)) f = .ok () t ∧ t.Spine b (v + 1) low := by
  have hlev : (b (v + 1)).level = v + 1 := hr.level (by omega) le_rfl
  have hid : idAt b (v + 1) = (b (v + 1)).id := idAt_of_pos (by omega)
  have hnone : f.getVertex (b (v + 1)).id = none :=
    hid ▸ h.getVertex_idAt_of_lt hr (by omega) le_rfl (by omega)
  have hfit : f.Fits (b (v + 1)) := by
    refine ⟨fun p c hp hc => ?_, fun p c ps hat hc => ?_, fun hloop => ?_, fun a ha => ?_, fun x c hx hc => ?_⟩
    · -- there is no container of this id
      obtain ⟨c', -, -, ⟨hl, hx⟩, -⟩ := h.indexed _ p hp
      have := hr.inj _ _ le_rfl (by omega) (hid.trans hx)
      omega
    · -- there is no container of this level
      rw [hlev] at hat
      obtain ⟨c', hc', hcl, hlk, -⟩ := h.tidy.levelled (v + 1) p (hat ▸ List.mem_cons_self)
      obtain ⟨c'', hc'', -, ⟨hl, -⟩, -⟩ := h.indexed _ p hlk
      rw [hc'] at hc''
      cases hc''
      omega
    · rw [hr.prevID v le_rfl, ← hid] at hloop
      have := hr.inj _ _ (by omega) le_rfl hloop
      omega
    · obtain ⟨u, h1, -, hu, -, rfl⟩ := (h.stored _ _).1 ha
      rw [hr.level h1 (by omega), hlev]
      omega
    · obtain ⟨u, h1, -, hu, -, rfl⟩ := (h.stored _ _).1 hx
      have := hr.prevID_eq h1 (by omega) le_rfl (hc.trans hid.symm)
      omega
  obtain ⟨_, t, ht, htidy⟩ := Prog.exists_ok_of_wp (hfit.addVertex h.tidy (hr.qc_ne_none (by omega) le_rfl))
  have hadd := Prog.wp_ok (addVertex_spec h.indexed.wf (b (v + 1))) ht
  refine ⟨t, ht, htidy, hadd.indexed _ ⟨hlev.le, hlev.symm ▸ hid.symm⟩ (fun q l hq => ?_)
    (h.indexed.mono fun x l hl => ⟨by omega, hl.2⟩), hadd.lowest.trans h.lowest, fun x c => ?_⟩
  · rw [hr.parent le_rfl] at hq
    cases hq
    exact ⟨by omega, rfl⟩
  · rw [hadd.stored]
    split_ifs with hx
    · obtain ⟨rfl, -, -⟩ := hx
      constructor
      · intro hc
        exact ⟨v + 1, by omega, hlow, le_rfl, rfl, (Option.some.inj hc).symm⟩
      · rintro ⟨w, h1, -, hw, hxw, rfl⟩
        rw [hr.id_inj (by omega) le_rfl h1 hw hxw]
    · rw [h.stored]
      constructor
      · rintro ⟨w, h1, hlw, hw, hrest⟩
        exact ⟨w, h1, hlw, by omega, hrest⟩
      · rintro ⟨w, h1, hlw, hw, rfl, rfl⟩
        rcases Nat.lt_or_ge v w with hlt | hle
        · obtain rfl : w = v + 1 := by omega
          exact absurd ⟨rfl, by rw [h.lowest, hlev]; exact hlow, hnone⟩ hx
        · exact ⟨w, h1, hlw, hle, rfl, rfl⟩

theorem Spine.planted (h : f.Spine b v low) (hr : Row cf b v) :
    f.Planted fun x l => l ≤ v ∧ x = idAt b l where
  levelled := h.tidy.levelled
  indexed := h.indexed
  one := fun x y c d hc hd hl => by
    obtain ⟨u, h1, -, hu, -, rfl⟩ := (h.stored _ _).1 hc
    obtain ⟨w, h1', -, hw, -, rfl⟩ := (h.stored _ _).1 hd
    rw [hr.level h1 hu, hr.level h1' hw] at hl
    rw [hl]
  above := fun x c p hc hp => by
    obtain ⟨w, h1, -, hw, -, rfl⟩ := (h.stored _ _).1 hp
    rw [hr.level h1 hw]
    refine ⟨h1, ?_⟩
    have := h.tidy.above x c (b w) hc hp
    rwa [hr.level h1 hw] at this
  cert := h.tidy.cert

end LevelledForest

namespace BlockChain

open LevelledForest

variable {bc t : BlockChain} {view : ℤ}

/-- The stored blocks from view `w` down to the one after the last committed block. -/
theorem Above.eq_of_spine {f : LevelledForest} (h : f.Spine b v low) (hr : Row cf b v) (hw : w ≤ v)
    (hlow : low ≤ w) {l : List Block} (hl : Above f low (b w) l) (h1 : 1 ≤ w) :
    l = ((List.range' (low + 1) (w - low)).map b).reverse := by
  have hlev : uint64 (b w).view = w := hr.level h1 hw
  induction w generalizing l with
  | zero => omega
  | succ w ih =>
    have hprev : (b (w + 1)).prevID = idAt b w := hr.prevID w hw
    rcases Nat.lt_or_ge low (w + 1) with hlt | hge
    · have hsplit : List.range' (low + 1) (w + 1 - low) = List.range' (low + 1) (w - low) ++ [w + 1] := by
        rw [show w + 1 - low = (w - low) + 1 by omega, List.range'_concat]
        congr 2
        omega
      rw [hsplit, List.map_append, List.reverse_append]
      cases hl with
      | stop hle => omega
      | last _ hn =>
        -- the block before is not stored, so there is none
        have hzero : w = 0 ∨ w - low = 0 := by
          by_contra hcon
          rw [hprev, idAt_of_pos (by omega), h.getVertex (by omega) (by omega) (by omega)] at hn
          cases hn
        have hnil : w - low = 0 := by omega
        rw [hnil]
        rfl
      | @next _ p l' _ hp htail =>
        rw [hprev] at hp
        obtain ⟨u, hu1, hulow, huv, hid, rfl⟩ := (h.stored _ _).1 hp
        obtain rfl : w = u := hr.inj w u (by omega) huv (hid.trans (idAt_of_pos hu1).symm)
        rw [ih (by omega) hulow htail hu1 (hr.level hu1 huv)]
        rfl
    · obtain rfl : low = w + 1 := by omega
      cases hl with
      | stop => simp
      | last hlt => omega
      | next hlt => omega

/-- The stored blocks before a stored block are its ancestors. -/
theorem ancestors_of_spine {f : LevelledForest} (h : f.Spine b v low) (hr : Row cf b v) {u : ℕ} (hu : 1 ≤ u)
    (hlow : low ≤ u) (huw : u < w) (hw : w ≤ v) : Relation.TransGen f.ParentOf (b w) (b u) := by
  induction w with
  | zero => omega
  | succ w ih =>
    have hp : f.ParentOf (b (w + 1)) (b w) := by
      show f.getVertex (b (w + 1)).prevID = some (b w)
      rw [hr.prevID w hw, idAt_of_pos (by omega)]
      exact h.getVertex (by omega) (by omega) (by omega)
    rcases Nat.lt_or_ge u w with hlt | hge
    · exact .head hp (ih hlt (by omega))
    · obtain rfl : u = w := by omega
      exact .single hp

theorem quorum_settled (l : List Block) :
    (settled view bc l).quorum = (l.map Block.id).foldl Quorum.delete bc.quorum := by
  induction l generalizing bc with
  | nil => rfl
  | cons c l ih => exact ih

/-- **A commit in a row** returns the blocks after the one committed last, newest first; it forks nothing and
forgets their votes. -/
theorem commitBlock_of_spine (h : bc.forrest.Spine b v low) (hr : Row cf b v) (hlow : low < w) (hw : w ≤ v)
    (view : ℤ) :
    ∃ t, commitBlock (b w).id view bc =
        .ok (some (((List.range' (low + 1) (w - low)).map b).reverse, [])) t ∧
      t.forrest.Spine b v w ∧
      t.quorum = (((List.range' (low + 1) (w - low)).map b).reverse.map Block.id).foldl Quorum.delete
        bc.quorum := by
  have h1 : 1 ≤ w := by omega
  have hc := h.getVertex h1 (by omega) hw
  obtain ⟨r, t, ht, htidy, -⟩ := Prog.exists_ok_of_wp (commitBlock_tidy h.tidy (b w).id view)
  have hpl := h.planted hr
  cases commitBlock_eq_ok ht with
  | missing hn =>
    rw [hc] at hn
    cases hn
  | refused hc' hlt =>
    rw [hc] at hc'
    cases hc'
    rw [hr.level h1 hw, h.lowest] at hlt
    omega
  | @done c l forked j f hc' hl hp =>
    rw [hc] at hc'
    cases hc'
    obtain ⟨forked', j', hres, hcut⟩ := hpl.pruneUpToLevel hc hp
    cases hres
    rw [h.lowest] at hl
    obtain rfl := hl.eq_of_spine h hr hw (by omega) h1
    obtain rfl : forked = [] := by
      refine List.eq_nil_iff_forall_not_mem.2 fun c hc => ?_
      obtain ⟨hst, hlt, -, hnot⟩ := (hcut.forked_iff c).1 hc
      obtain ⟨u, hu1, hulow, huv, -, rfl⟩ := (h.stored _ _).1 hst
      rw [hr.level hu1 huv, hr.level h1 hw] at hlt
      exact hnot (ancestors_of_spine h hr hu1 hulow hlt hw)
    refine ⟨_, ht, ⟨htidy, hcut.planted.indexed, hcut.lowest.trans (hr.level h1 hw), fun x c => ?_⟩, ?_⟩
    · have hiff : f.getVertex x = some c ↔ bc.forrest.getVertex x = some c ∧ w ≤ c.level := by
        constructor
        · intro hx
          obtain ⟨rfl, -⟩ := hcut.planted.levelled.listedAt hcut.planted.indexed hx
          have := (hcut.stored_iff c).1 hx
          rwa [hr.level h1 hw] at this
        · rintro ⟨hx, hle⟩
          obtain ⟨rfl, -⟩ := hpl.levelled.listedAt hpl.indexed hx
          exact (hcut.stored_iff c).2 ⟨hx, by rwa [hr.level h1 hw]⟩
      show f.getVertex x = some c ↔ _
      rw [hiff, h.stored]
      constructor
      · rintro ⟨⟨u, hu1, -, huv, rfl, rfl⟩, hle⟩
        rw [hr.level hu1 huv] at hle
        exact ⟨u, hu1, hle, huv, rfl, rfl⟩
      · rintro ⟨u, hu1, hle, huv, rfl, rfl⟩
        exact ⟨⟨u, hu1, by omega, huv, rfl, rfl⟩, by rwa [hr.level hu1 huv]⟩
    · exact quorum_settled _

end BlockChain

end Bamboo
