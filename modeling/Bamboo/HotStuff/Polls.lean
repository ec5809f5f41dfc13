import Bamboo.HotStuff.Adoption
import Bamboo.HotStuff.Outcome

/-!
# Votes for one block

What a list of votes for one block does to a replica, before and after the block is stored: at most one of
the votes completes a quorum, and from there on the votes have the effect of the certificate.

* `Quorum.Polled`: who has voted for the block;
* `processVotes_idle`, `processVotes_crossing`, `processVotes_unstored`: too few votes, enough votes, and
  votes before their block;
* `storeBlock`, `castState`: a block is stored, and the replica's own vote is cast;
* `finish_noQuorum`, `finish_overwritten`, `finish_waiting`: the votes before and after the own vote.
-/

namespace Bamboo

/-! ### Who has voted -/

namespace Quorum

variable {q : Quorum} {cf : Config} {id : ℕ} {W : Finset NodeID}

/-- The voters `W` have voted for the block; later ones may be missing once they are more than two
thirds. -/
structure Polled (q : Quorum) (id : ℕ) (W : Finset NodeID) : Prop where
  full : q.superMajority id = true ↔ q.total * 2 / 3 < W.card
  voters : q.superMajority id = false → (q.votesFor id).keys.toFinset = W

theorem size_eq (q : Quorum) (id : ℕ) : q.size id = (q.votesFor id).keys.toFinset.card := by
  rw [List.toFinset_card_of_nodup (AList.keys_nodup _), size, AList.keys, List.keys, List.length_map]

theorem polled_empty (h : q.votesFor id = ∅) : q.Polled id ∅ := by
  have hkeys : (q.votesFor id).keys.toFinset = ∅ := by rw [h]; rfl
  refine ⟨?_, fun _ => hkeys⟩
  rw [superMajority, decide_eq_true_iff, size_eq, hkeys]

/-- A quorum that agrees on the block. -/
theorem Polled.congr {q' : Quorum} (h : q.Polled id W) (hv : q'.votesFor id = q.votesFor id)
    (ht : q'.total = q.total) : q'.Polled id W := by
  have hs : q'.superMajority id = q.superMajority id := by
    unfold superMajority size
    rw [hv, ht]
  exact ⟨by rw [hs, ht]; exact h.full, by rw [hs, hv]; exact h.voters⟩

theorem total_add (q : Quorum) (v : Vote) : (q.add cf v).2.total = q.total := by
  unfold add
  dsimp only
  split_ifs <;> rfl

/-- One more voter. -/
theorem Polled.add {v : Vote} (h : q.Polled v.blockID W) :
    (q.add cf v).2.Polled v.blockID (insert v.voter W) ∧
      ((∃ qc, (q.add cf v).1 = some qc) ↔
        ¬ q.total * 2 / 3 < W.card ∧ q.total * 2 / 3 < (insert v.voter W).card) := by
  have hmono : W.card ≤ (insert v.voter W).card := Finset.card_le_card (Finset.subset_insert _ _)
  unfold Quorum.add
  dsimp only
  by_cases hfull : q.superMajority v.blockID = true
  · rw [if_pos hfull]
    have hW := h.full.1 hfull
    refine ⟨⟨⟨fun _ => ?_, fun _ => hfull⟩, fun hn => ?_⟩, ?_, fun hx => absurd hW hx.1⟩
    · dsimp only
      omega
    · rw [hfull] at hn
      cases hn
    · rintro ⟨_, hqc⟩
      cases hqc
  · rw [if_neg hfull]
    -- the vote goes on record
    have hkeys : ((q.record v).votesFor v.blockID).keys.toFinset = insert v.voter W := by
      rw [← h.voters (by simpa using hfull), votesFor_record, if_pos rfl]
      ext i
      simp only [List.mem_toFinset, ← AList.mem_keys, AList.mem_insert, Finset.mem_insert]
    have hfull' : (q.record v).superMajority v.blockID = true ↔
        q.total * 2 / 3 < (insert v.voter W).card := by
      rw [superMajority, decide_eq_true_iff, size_eq, hkeys]
      rfl
    have hnW : ¬ q.total * 2 / 3 < W.card := fun hW => hfull (h.full.2 hW)
    have hp : (q.record v).Polled v.blockID (insert v.voter W) := ⟨hfull', fun _ => hkeys⟩
    split_ifs with hnow
    · exact ⟨hp, ⟨fun _ => ⟨hnW, hfull'.1 hnow⟩, fun _ => ⟨_, rfl⟩⟩⟩
    · refine ⟨hp, ?_, fun hx => absurd (hfull'.2 hx.2) hnow⟩
      rintro ⟨_, hqc⟩
      cases hqc

end Quorum

namespace HotStuff

open Prog

variable {nd : Node} {s t u : HotStuff} {b : Block} {vs : List Vote} {W : Finset NodeID}

/-! ### A certificate for the block -/

/-- A certificate for the block that the replica takes without a check. -/
structure CertifiedBy (nd : Node) (b : Block) (qc : QC) : Prop where
  view : qc.view = b.view
  blockID : qc.blockID = b.id
  passes : checkQC nd qc = .ok true

/-- A certificate for the block comes too late, or does not find the block and its parent. -/
def Inert (s : HotStuff) (b : Block) : Prop :=
  b.view < s.pm.curView ∨ s.bc.forrest.getVertex b.id = none ∨
    2 < b.view ∧ s.bc.getParentBlock b.id = none

theorem Inert.congr (h : SameCore s t) : Inert s b ↔ Inert t b := by
  unfold Inert
  rw [h.pm, h.forrest, h.getParentBlock]

/-- Without effect. -/
theorem processCertificate_inert (hb : nd.isByz = false) (h : Inert s b)
    (hst : s.bc.forrest.getVertex b.id ≠ none) {qc : QC} (hc : CertifiedBy nd b qc) :
    ∃ t, processCertificate nd qc s = .ok () t ∧ Alike s t := by
  rcases certificate_cases nd s qc with ⟨⟨hv, -⟩, hgo⟩ | hw | hr | ⟨-, e, he⟩
  · exfalso
    rw [hc.view] at hv
    have htr : Traceable s qc := hgo.resolve_left fun hf => by simp [hf.1] at hb
    rw [Traceable, hc.view, hc.blockID] at htr
    rcases h with h | h | ⟨h2, hp⟩
    · omega
    · exact hst h
    · rcases htr with htr | ⟨-, htr⟩
      · omega
      · rw [hp] at htr
        cases htr
  · exact ⟨_, processCertificate_waits hw, { Alike.refl s with }⟩
  · exact ⟨s, processCertificate_rejected hr, .refl s⟩
  · rw [hc.passes] at he
    cases he

/-- A certificate has its effect once. -/
theorem processCertificate_settles {qc : QC} (hc : CertifiedBy nd b qc)
    (hr : processCertificate nd qc s = .ok () t) : Inert t b := by
  rcases certificate_cases nd s qc with ha | hw | hrej | ⟨-, e, he⟩
  · -- the replica has entered the next view
    have hview := processCertificate_accepts ha
    rw [hr, final, hc.view] at hview
    exact Or.inl (by omega)
  · have hwait := processCertificate_waits hw
    rw [hr] at hwait
    cases hwait
    have hn := hw.2.2
    rw [Traceable, hc.view, hc.blockID, not_or, not_and_or] at hn
    rcases hn with ⟨h2, hn | hn⟩
    · exact Or.inr (Or.inl (by simpa [BlockChain.getBlockByID] using hn))
    · exact Or.inr (Or.inr ⟨by omega, by simpa using hn⟩)
  · have hrej' := processCertificate_rejected hrej
    rw [hr] at hrej'
    cases hrej'
    rcases hrej with hold | hfalse
    · exact Or.inl (hc.view ▸ hold)
    · rw [hc.passes] at hfalse
      cases hfalse
  · rw [hc.passes] at he
    cases he

/-! ### Votes for the block -/

/-- A vote for the block that passes the replica's check. -/
structure ValidVote (nd : Node) (b : Block) (v : Vote) : Prop where
  blockID : v.blockID = b.id
  view : v.view = b.view
  valid : checkVote nd v = .ok true

/-- `ProcessVote` on each vote of a list. -/
def processVotes (nd : Node) : List Vote → Go HotStuff Unit
  | [] => pure ()
  | v :: vs => do
    processVote nd v
    processVotes nd vs

/-- The voters of a list of votes. -/
def votersOf (vs : List Vote) : Finset NodeID := (vs.map Vote.voter).toFinset

theorem votersOf_cons (v : Vote) (vs : List Vote) : votersOf (v :: vs) = insert v.voter (votersOf vs) := by
  simp [votersOf]

/-- The state in which a vote has been counted. -/
def counted (nd : Node) (s : HotStuff) (v : Vote) : HotStuff :=
  { s with bc := { s.bc with quorum := (s.bc.quorum.add nd.toConfig v).2 } }

theorem counted_alike (s : HotStuff) (v : Vote) : Alike s (counted nd s v) := { Alike.refl s with }

/-- `ProcessVote` on a vote that does not complete a quorum. -/
theorem processVote_counts {v : Vote} (hv : checkVote nd v = .ok true)
    (h : ¬ ∃ qc, (s.bc.quorum.add nd.toConfig v).1 = some qc) :
    processVote nd v s = .ok () (counted nd s v) := by
  have hnone : (s.bc.quorum.add nd.toConfig v).1 = none := by
    cases hq : (s.bc.quorum.add nd.toConfig v).1 with
    | none => rfl
    | some qc => exact absurd ⟨qc, hq⟩ h
  unfold processVote
  rw [hv, ok_bind_apply, if_neg (by simp), get_bind_apply]
  unfold BlockChain.addVote
  simp only [hnone]
  rfl

/-- `ProcessVote` on a vote that completes a quorum. -/
theorem processVote_builds {v : Vote} (hv : ValidVote nd b v)
    (h : ∃ qc, (s.bc.quorum.add nd.toConfig v).1 = some qc) :
    ∃ qc u, CertifiedBy nd b qc ∧ Alike s u ∧ u.bc.quorum = (s.bc.quorum.add nd.toConfig v).2 ∧
      u.bufferedQCs = s.bufferedQCs ∧
      processVote nd v s = (if s.bc.forrest.getVertex b.id = none
        then .ok () { u with bufferedQCs := u.bufferedQCs.insert b.id qc }
        else processCertificate nd qc u) := by
  obtain ⟨qc, hqc⟩ := h
  obtain ⟨hview, hid⟩ := Quorum.add_eq_some hqc
  refine ⟨{ qc with leader := nd.id },
    { counted nd s v with trace := s.trace ++ [.built { qc with leader := nd.id }] },
    ⟨hview.trans hv.view, hid.trans hv.blockID, if_neg fun hne => hne rfl⟩,
    (counted_alike s v).note rfl, rfl, rfl, ?_⟩
  unfold processVote
  rw [hv.valid, ok_bind_apply, if_neg (by simp), get_bind_apply]
  unfold BlockChain.addVote
  simp only [hqc]
  rw [set_bind_apply]
  unfold note
  rw [modify_bind_apply]
  simp only [BlockChain.getBlockByID, hid, hv.blockID]
  cases s.bc.forrest.getVertex b.id with
  | none =>
    rw [if_pos rfl]
    rfl
  | some x =>
    rw [if_neg (by simp)]
    rfl

/-- Votes for a block whose certificate has no effect. -/
theorem processVotes_inert (hb : nd.isByz = false) (h : Inert s b) (hvs : ∀ v ∈ vs, ValidVote nd b v) :
    ∃ t, processVotes nd vs s = .ok () t ∧ Alike s t := by
  induction vs generalizing s with
  | nil => exact ⟨s, rfl, .refl s⟩
  | cons v vs ih =>
    obtain ⟨hv, hvs⟩ := List.forall_mem_cons.1 hvs
    have hone : ∃ t, processVote nd v s = .ok () t ∧ Alike s t := by
      by_cases hbuilt : ∃ qc, (s.bc.quorum.add nd.toConfig v).1 = some qc
      · obtain ⟨qc, u, hqc, hu, -, -, hr⟩ := processVote_builds hv hbuilt
        by_cases hst : s.bc.forrest.getVertex b.id = none
        · rw [if_pos hst] at hr
          exact ⟨_, hr, { hu with }⟩
        · rw [if_neg hst] at hr
          obtain ⟨t, ht, hut⟩ := processCertificate_inert hb ((Inert.congr hu.toSameCore).1 h)
            (hu.forrest ▸ hst) hqc
          exact ⟨t, hr.trans ht, hu.trans hut⟩
      · exact ⟨_, processVote_counts hv.valid hbuilt, counted_alike s v⟩
    obtain ⟨t, ht, hst⟩ := hone
    obtain ⟨t', ht', hst'⟩ := ih ((Inert.congr hst.toSameCore).1 h) hvs
    exact ⟨t', (bind_apply_ok ht).trans ht', hst.trans hst'⟩

/-- The union of the voters, with the next one moved over. -/
theorem union_votersOf_cons (W : Finset NodeID) (v : Vote) (vs : List Vote) :
    W ∪ votersOf (v :: vs) = insert v.voter W ∪ votersOf vs := by
  rw [votersOf_cons, Finset.union_insert, Finset.insert_union]

/-- One more vote for the block, as far as the count is concerned. -/
theorem polled_counted (nd : Node) (hp : s.bc.quorum.Polled b.id W) {v : Vote} (hid : v.blockID = b.id) :
    (counted nd s v).bc.quorum.Polled b.id (insert v.voter W) ∧
      (counted nd s v).bc.quorum.total = s.bc.quorum.total ∧
      ((∃ qc, (s.bc.quorum.add nd.toConfig v).1 = some qc) ↔
        ¬ s.bc.quorum.total * 2 / 3 < W.card ∧ s.bc.quorum.total * 2 / 3 < (insert v.voter W).card) := by
  rw [← hid] at hp ⊢
  exact ⟨hp.add.1, Quorum.total_add _ v, hp.add.2⟩

/-- Votes that do not complete a quorum. -/
theorem processVotes_idle (hp : s.bc.quorum.Polled b.id W) (hvs : ∀ v ∈ vs, ValidVote nd b v)
    (hno : s.bc.quorum.total * 2 / 3 < W.card ∨
      ¬ s.bc.quorum.total * 2 / 3 < (W ∪ votersOf vs).card) :
    ∃ t, processVotes nd vs s = .ok () t ∧ Alike s t := by
  induction vs generalizing s W with
  | nil => exact ⟨s, rfl, .refl s⟩
  | cons v vs ih =>
    obtain ⟨hv, hvs⟩ := List.forall_mem_cons.1 hvs
    obtain ⟨hp', ht, hbuilt⟩ := polled_counted nd hp hv.blockID
    rw [union_votersOf_cons] at hno
    have hle : W.card ≤ (insert v.voter W).card := Finset.card_le_card (Finset.subset_insert _ _)
    have hle' : (insert v.voter W).card ≤ (insert v.voter W ∪ votersOf vs).card :=
      Finset.card_le_card Finset.subset_union_left
    obtain ⟨t, hrun, hst⟩ := ih (s := counted nd s v) hp' hvs (by rw [ht]; omega)
    have hfirst := processVote_counts (s := s) hv.valid fun hex => by
      have := hbuilt.1 hex
      omega
    exact ⟨t, (bind_apply_ok hfirst).trans hrun, (counted_alike s v).trans hst⟩

/-- **Votes that complete a quorum** have the effect of the certificate. -/
theorem processVotes_crossing (hb : nd.isByz = false) (hst : s.bc.forrest.getVertex b.id ≠ none)
    (hp : s.bc.quorum.Polled b.id W) (hvs : ∀ v ∈ vs, ValidVote nd b v)
    (hW : ¬ s.bc.quorum.total * 2 / 3 < W.card)
    (hfull : s.bc.quorum.total * 2 / 3 < (W ∪ votersOf vs).card) {qc : QC} (hqc : CertifiedBy nd b qc)
    (hu : Alike s u) :
    Pair (processVotes nd vs) (processCertificate nd qc) (fun _ _ => Alike) s u := by
  induction vs generalizing s W with
  | nil =>
    rw [votersOf, List.map_nil, List.toFinset_nil, Finset.union_empty] at hfull
    exact absurd hfull hW
  | cons v vs ih =>
    obtain ⟨hv, hvs⟩ := List.forall_mem_cons.1 hvs
    obtain ⟨hp', ht, hbuilt⟩ := polled_counted nd hp hv.blockID
    rw [union_votersOf_cons] at hfull
    by_cases hnow : s.bc.quorum.total * 2 / 3 < (insert v.voter W).card
    · -- this vote builds the certificate, the others come after it
      obtain ⟨qc', u', hqc', hu', -, -, hr⟩ := processVote_builds hv (hbuilt.2 ⟨hW, hnow⟩)
      rw [if_neg hst] at hr
      have hpair := (processCertificate_pair nd (hu'.symm.trans hu) (hqc'.view.trans hqc.view.symm)
        (hqc'.blockID.trans hqc.blockID.symm) (hqc'.passes.trans hqc.passes.symm)).congr_left
          (m := processVote nd v) hr
      have hinert : wp (processVote nd v) (fun _ t => Inert t b) (fun _ => True) s := by
        refine wp_mono (wp_self (m := processVote nd v)) (fun _ t hrt => ?_) fun _ h => h
        rw [hr] at hrt
        exact processCertificate_settles hqc' hrt
      refine (hpair.and_left hinert).bind_left ?_
      rintro _ _ s' t' ⟨halike, hs'⟩
      obtain ⟨t'', hrun, hst'⟩ := processVotes_inert hb hs' hvs
      exact ⟨(), t'', hrun, hst'.symm.trans halike⟩
    · have hfirst := processVote_counts (s := s) hv.valid fun hex => hnow (hbuilt.1 hex).2
      refine (ih (s := counted nd s v) hst hp' hvs (by rw [ht]; exact hnow) (by rw [ht]; exact hfull)
        ((counted_alike s v).symm.trans hu)).congr_left ?_
      exact bind_apply_ok hfirst

/-- **Votes before their block**: a certificate waits, if there are enough. -/
theorem processVotes_unstored (hst : s.bc.forrest.getVertex b.id = none)
    (hp : s.bc.quorum.Polled b.id W) (hvs : ∀ v ∈ vs, ValidVote nd b v) :
    ∃ t, processVotes nd vs s = .ok () t ∧ Alike s t ∧ t.bc.quorum.total = s.bc.quorum.total ∧
      t.bc.quorum.Polled b.id (W ∪ votersOf vs) ∧
      if ¬ s.bc.quorum.total * 2 / 3 < W.card ∧ s.bc.quorum.total * 2 / 3 < (W ∪ votersOf vs).card
      then ∃ qc, CertifiedBy nd b qc ∧ t.bufferedQCs.lookup b.id = some qc
      else t.bufferedQCs.lookup b.id = s.bufferedQCs.lookup b.id := by
  induction vs generalizing s W with
  | nil =>
    refine ⟨s, rfl, .refl s, rfl, by simpa [votersOf] using hp, ?_⟩
    rw [if_neg (by simp [votersOf])]
  | cons v vs ih =>
    obtain ⟨hv, hvs⟩ := List.forall_mem_cons.1 hvs
    obtain ⟨hp', ht, hbuilt⟩ := polled_counted nd hp hv.blockID
    rw [union_votersOf_cons]
    have hle : W.card ≤ (insert v.voter W).card := Finset.card_le_card (Finset.subset_insert _ _)
    have hle' : (insert v.voter W).card ≤ (insert v.voter W ∪ votersOf vs).card :=
      Finset.card_le_card Finset.subset_union_left
    by_cases hex : ∃ qc, (s.bc.quorum.add nd.toConfig v).1 = some qc
    · obtain ⟨qc, u', hqc, hu', hq', hbuf, hr⟩ := processVote_builds hv hex
      rw [if_pos hst] at hr
      obtain ⟨hW, hnow⟩ := hbuilt.1 hex
      have hpu : u'.bc.quorum.Polled b.id (insert v.voter W) := hq' ▸ hp'
      have htu : u'.bc.quorum.total = s.bc.quorum.total := by rw [hq']; exact ht
      obtain ⟨t, hrun, hst', htot, hpt, hlook⟩ :=
        ih (s := { u' with bufferedQCs := u'.bufferedQCs.insert b.id qc }) (hu'.forrest ▸ hst) hpu hvs
      dsimp only at htot hlook
      rw [htu] at htot hlook
      refine ⟨t, (bind_apply_ok hr).trans hrun, hu'.trans { hst' with }, htot, hpt, ?_⟩
      rw [if_pos ⟨hW, by omega⟩]
      rw [if_neg (by omega)] at hlook
      exact ⟨qc, hqc, by rw [hlook, AList.lookup_insert]⟩
    · have hfirst := processVote_counts (s := s) hv.valid hex
      obtain ⟨t, hrun, hst', htot, hpt, hlook⟩ := ih (s := counted nd s v) hst hp' hvs
      rw [ht] at htot hlook
      refine ⟨t, (bind_apply_ok hfirst).trans hrun, (counted_alike s v).trans hst', htot, hpt, ?_⟩
      have hiff : (¬ s.bc.quorum.total * 2 / 3 < (insert v.voter W).card ∧
          s.bc.quorum.total * 2 / 3 < (insert v.voter W ∪ votersOf vs).card) ↔
          (¬ s.bc.quorum.total * 2 / 3 < W.card ∧
            s.bc.quorum.total * 2 / 3 < (insert v.voter W ∪ votersOf vs).card) := by
        have hnb : ¬ (¬ s.bc.quorum.total * 2 / 3 < W.card ∧
            s.bc.quorum.total * 2 / 3 < (insert v.voter W).card) := fun h => hex (hbuilt.2 h)
        omega
      simp only [hiff] at hlook
      exact hlook

theorem processVotes_append (vs ws : List Vote) :
    processVotes nd (vs ++ ws) = processVotes nd vs >>= fun _ => processVotes nd ws := by
  induction vs with
  | nil => rfl
  | cons v vs ih => rw [List.cons_append, processVotes, processVotes, ih, bind_assoc]

/-! ### The block -/

/-- The first part of `insertBlock`: `AddBlock`. -/
def storeBlock (block : Block) : Go HotStuff Unit := do
  let hs ← get
  note (.accepted block hs.preferredView (hs.bc.getBlockByID block.prevID))
  Prog.zoom bc (fun bc hs => { hs with bc := bc }) (BlockChain.addBlock block)

theorem insertBlock_eq (nd : Node) (b : Block) :
    insertBlock nd b = storeBlock b >>= fun _ => processBufferedQC nd b.id := by
  simp [insertBlock, storeBlock, bind_assoc]

theorem storeBlock_eq_ok (h : storeBlock b s = .ok () t) :
    ∃ f, LevelledForest.addVertex b s.bc.forrest = .ok () f ∧ t = { s with
      bc := { s.bc with forrest := f }
      trace := s.trace ++ [.accepted b s.preferredView (s.bc.getBlockByID b.prevID)] } := by
  unfold storeBlock at h
  rw [get_bind_apply] at h
  unfold note at h
  rw [modify_bind_apply] at h
  obtain ⟨bc, hbc, rfl⟩ := zoom_eq_ok h
  obtain ⟨f, hf, rfl⟩ := zoom_eq_ok hbc
  exact ⟨f, hf, rfl⟩

theorem storeBlock_pair (h : Alike s t) (b : Block) :
    Pair (storeBlock b) (storeBlock b) (fun _ _ => Alike) s t := by
  unfold storeBlock
  refine pair_get_bind (pair_modify_bind (pair_zoom (pair_zoom ?_)))
  dsimp only
  rw [h.forrest]
  unfold Pair
  cases LevelledForest.addVertex b t.bc.forrest with
  | error e f => trivial
  | ok a f =>
    have hn := (h.symm.note (e := .accepted b s.preferredView (s.bc.getBlockByID b.prevID)) rfl).symm.note
      (e := .accepted b t.preferredView (t.bc.getBlockByID b.prevID)) rfl
    exact { hn with forrest := rfl }

/-- The replica's own votes to itself, if the voting rule allows the vote `v` for the block. -/
def ownVotes (nd : Node) (b : Block) (v : Vote) (s : HotStuff) : List Vote :=
  if s.votingRule b = some true ∧ nd.elec.findLeaderFor (b.view + 1) = nd.id then [v] else []

/-- The state in which the vote `v` for the block is cast and, unless it is to the replica itself, sent. -/
def castState (nd : Node) (b : Block) (v : Vote) (s : HotStuff) : HotStuff :=
  if s.votingRule b = some true then
    { s with
      trace := s.trace ++ [.voted b]
      sent := if nd.elec.findLeaderFor (b.view + 1) = nd.id then s.sent
        else s.sent ++ [⟨some (nd.elec.findLeaderFor (b.view + 1)), .vote v⟩] }
  else s

theorem castVote_eq {v : Vote} (hv : makeVote nd.toConfig b.view nd.id b.id = .ok v) (k : Go HotStuff Unit) :
    (castVote nd b >>= fun _ => k) s =
      (processVotes nd (ownVotes nd b v s) >>= fun _ => k) (castState nd b v s) := by
  unfold castVote ownVotes castState
  rw [bind_assoc, get_bind_apply]
  cases hr : s.votingRule b with
  | none => rfl
  | some vote =>
    cases vote with
    | false => rfl
    | true =>
      simp only [true_and, if_true]
      rw [hv, bind_assoc, ok_bind_apply]
      unfold note
      rw [bind_assoc, modify_bind_apply]
      by_cases hl : nd.elec.findLeaderFor (b.view + 1) = nd.id
      · simp only [hl, if_true]
        simp only [processVotes, bind_assoc, pure_bind]
      · simp only [hl, if_false]
        simp only [processVotes, bind_assoc, pure_bind]
        rfl

theorem castState_alike (nd : Node) (b : Block) (v : Vote) (h : Alike s t) :
    Alike (castState nd b v s) (castState nd b v t) := by
  unfold castState
  rw [h.votingRule, h.sent]
  split_ifs
  · exact { h with
      sent := rfl
      votes := by rw [votedBlocks_append, votedBlocks_append, h.votes] }
  · exact { h with
      sent := rfl
      votes := by rw [votedBlocks_append, votedBlocks_append, h.votes] }
  · exact h

theorem castState_core (nd : Node) (b : Block) (v : Vote) (s : HotStuff) : SameCore s (castState nd b v s) := by
  unfold castState
  split_ifs
  · exact { SameCore.refl s with }
  · exact { SameCore.refl s with }
  · exact .refl s

theorem castState_quorum (nd : Node) (b : Block) (v : Vote) (s : HotStuff) :
    (castState nd b v s).bc.quorum = s.bc.quorum := by
  unfold castState
  split_ifs <;> rfl

theorem ownVotes_congr (h : SameCore s t) {v : Vote} : ownVotes nd b v s = ownVotes nd b v t := by
  unfold ownVotes
  rw [h.votingRule]

/-! ### The two orders after the block is stored -/

theorem validVote_of_makeVote {v : Vote} (hv : makeVote nd.toConfig b.view nd.id b.id = .ok v) :
    ValidVote nd b v := by
  obtain ⟨hview, hvoter, hid, -⟩ := makeVote_eq_ok hv
  exact ⟨hid, hview, if_neg (not_not.2 hvoter)⟩

theorem ownVotes_valid {v : Vote} (hv : makeVote nd.toConfig b.view nd.id b.id = .ok v) :
    ∀ w ∈ ownVotes nd b v s, ValidVote nd b w := by
  unfold ownVotes
  split_ifs
  · simpa using validVote_of_makeVote hv
  · simp

/-- A certificate for the block, as the replica would build it. -/
def ownQC (nd : Node) (b : Block) : QC := ⟨nd.id, b.view, b.id, [], [], []⟩

theorem certifiedBy_ownQC (nd : Node) (b : Block) : CertifiedBy nd b (ownQC nd b) :=
  ⟨rfl, rfl, if_neg fun h => h rfl⟩

section Stored

variable {d d' : HotStuff} {v : Vote}

theorem votersOf_append (vs ws : List Vote) : votersOf (vs ++ ws) = votersOf vs ∪ votersOf ws := by
  simp [votersOf]

/-- Too few votes for a certificate without the replica's own. -/
theorem finish_noQuorum (hb : nd.isByz = false) (hv : makeVote nd.toConfig b.view nd.id b.id = .ok v)
    (hvs : ∀ w ∈ vs, ValidVote nd b w) (hd : Alike d d') (hp : d.bc.quorum.Polled b.id ∅)
    (hp' : d'.bc.quorum.Polled b.id (votersOf vs)) (ht : d'.bc.quorum.total = d.bc.quorum.total)
    (hno : ¬ d.bc.quorum.total * 2 / 3 < (votersOf vs).card) :
    Pair (processVotes nd (ownVotes nd b v d ++ vs)) (processVotes nd (ownVotes nd b v d'))
      (fun _ _ => Alike) (castState nd b v d) (castState nd b v d') := by
  have hc := castState_alike nd b v hd
  have hall : ∀ w ∈ ownVotes nd b v d ++ vs, ValidVote nd b w := fun w hw =>
    (List.mem_append.1 hw).elim (ownVotes_valid hv w) (hvs w)
  have hown := ownVotes_valid (s := d') hv
  rw [ownVotes_congr hd.toSameCore] at hall ⊢
  have hq := castState_quorum nd b v d
  have hq' := castState_quorum nd b v d'
  have hcard : ∅ ∪ votersOf (ownVotes nd b v d' ++ vs) = votersOf vs ∪ votersOf (ownVotes nd b v d') := by
    rw [Finset.empty_union, votersOf_append, Finset.union_comm]
  by_cases hst : (castState nd b v d).bc.forrest.getVertex b.id = none
  · -- a certificate would only be put aside
    obtain ⟨x, hx, hdx⟩ := processVotes_inert hb (Or.inr (Or.inl hst)) hall
    obtain ⟨y, hy, hdy⟩ := processVotes_inert hb (Or.inr (Or.inl (hc.forrest ▸ hst))) hown
    exact pair_of_ok hx hy (hdx.symm.trans (hc.trans hdy))
  by_cases hx : d.bc.quorum.total * 2 / 3 < (votersOf vs ∪ votersOf (ownVotes nd b v d')).card
  · have hA := processVotes_crossing (W := ∅) hb hst (hq ▸ hp) hall (by simp) (by rw [hq, hcard]; exact hx)
      (certifiedBy_ownQC nd b) hc
    have hB := processVotes_crossing hb (hc.forrest ▸ hst) (hq' ▸ hp') hown (by rw [hq', ht]; exact hno)
      (by rw [hq', ht]; exact hx) (certifiedBy_ownQC nd b) (.refl _)
    refine (hA.trans hB.symm).mono ?_
    rintro _ _ s' t' ⟨_, u, h₁, h₂⟩
    exact h₁.trans h₂.symm
  · obtain ⟨x, hx', hdx⟩ := processVotes_idle (W := ∅) (hq ▸ hp) hall
      (Or.inr (by rw [hq, hcard]; exact hx))
    obtain ⟨y, hy, hdy⟩ := processVotes_idle (hq' ▸ hp') hown (Or.inr (by rw [hq', ht]; exact hx))
    exact pair_of_ok hx' hy (hdx.symm.trans (hc.trans hdy))

/-- The certificate of the votes is lost in one order. -/
theorem finish_overwritten (hb : nd.isByz = false) (hv : makeVote nd.toConfig b.view nd.id b.id = .ok v)
    (hvs : ∀ w ∈ vs, ValidVote nd b w) (hp : d.bc.quorum.Polled b.id ∅)
    (hp' : d'.bc.quorum.Polled b.id (votersOf vs)) (ht : d'.bc.quorum.total = d.bc.quorum.total)
    (hfull : d.bc.quorum.total * 2 / 3 < (votersOf vs).card) :
    (∃ y, processVotes nd (ownVotes nd b v d') (castState nd b v d') = .ok () y ∧
      Alike (castState nd b v d') y) ∧
      (Inert d b → ∃ x, processVotes nd (ownVotes nd b v d ++ vs) (castState nd b v d) = .ok () x ∧
        Alike (castState nd b v d) x) ∧
      (¬ Inert d b → ∀ x, processVotes nd (ownVotes nd b v d ++ vs) (castState nd b v d) = .ok () x →
        x.pm.curView = b.view + 1) := by
  have hall : ∀ w ∈ ownVotes nd b v d ++ vs, ValidVote nd b w := fun w hw =>
    (List.mem_append.1 hw).elim (ownVotes_valid hv w) (hvs w)
  have hq := castState_quorum nd b v d
  have hq' := castState_quorum nd b v d'
  have hcore := castState_core nd b v d
  refine ⟨processVotes_idle (hq' ▸ hp') (ownVotes_valid hv) (Or.inl (by rw [hq', ht]; exact hfull)),
    fun hi => processVotes_inert hb ((Inert.congr hcore).1 hi) hall, fun hi x hx => ?_⟩
  -- the votes complete a quorum for a block whose certificate is accepted
  have hi' := hi
  unfold Inert at hi'
  push Not at hi'
  obtain ⟨hcur, hst, hpar⟩ := hi'
  have hsub : (votersOf vs).card ≤ (∅ ∪ votersOf (ownVotes nd b v d ++ vs)).card := by
    rw [Finset.empty_union, votersOf_append]
    exact Finset.card_le_card Finset.subset_union_right
  have hA := processVotes_crossing (W := ∅) hb (hcore.forrest ▸ hst) (hq ▸ hp) hall (by simp)
    (by rw [hq]; omega) (certifiedBy_ownQC nd b) (.refl _)
  obtain ⟨_, y, hy, hxy⟩ := hA.ok hx
  have hacc : Accepts nd (castState nd b v d) (ownQC nd b) := by
    refine ⟨⟨hcore.pm ▸ hcur, (certifiedBy_ownQC nd b).passes⟩, Or.inr ?_⟩
    unfold Traceable
    rw [← hcore.getParentBlock]
    simp only [BlockChain.getBlockByID, ← hcore.forrest]
    by_cases h2 : b.view ≤ 2
    · exact Or.inl h2
    · exact Or.inr ⟨Option.isSome_iff_ne_none.2 hst, Option.isSome_iff_ne_none.2 (hpar (by omega))⟩
  have hview := processCertificate_accepts hacc
  rw [hy] at hview
  rw [hxy.pm]
  exact hview

/-- The certificate of the votes waits for the block in one order. -/
theorem finish_waiting (hb : nd.isByz = false) (hv : makeVote nd.toConfig b.view nd.id b.id = .ok v)
    (hvs : ∀ w ∈ vs, ValidVote nd b w) (hd : Alike d d') (hst : d.bc.forrest.getVertex b.id ≠ none)
    (hp : d.bc.quorum.Polled b.id ∅) (hfull : d.bc.quorum.total * 2 / 3 < (votersOf vs).card) {qc : QC}
    (hqc : CertifiedBy nd b qc) :
    Pair (processVotes nd (ownVotes nd b v d ++ vs)) (processCertificate nd qc)
      (fun _ _ x e => SameCore x e ∧ x.sent = (castState nd b v d).sent ∧
        votedBlocks x.trace = votedBlocks (castState nd b v d).trace ∧ Inert e b ∧ Mute d' e)
      (castState nd b v d) d' := by
  have hall : ∀ w ∈ ownVotes nd b v d ++ vs, ValidVote nd b w := fun w hw =>
    (List.mem_append.1 hw).elim (ownVotes_valid hv w) (hvs w)
  have hq := castState_quorum nd b v d
  have hcore := castState_core nd b v d
  have hsub : (votersOf vs).card ≤ (∅ ∪ votersOf (ownVotes nd b v d ++ vs)).card := by
    rw [Finset.empty_union, votersOf_append]
    exact Finset.card_le_card Finset.subset_union_right
  have hA := (processVotes_crossing (W := ∅) hb (hcore.forrest ▸ hst) (hq ▸ hp) hall (by simp)
    (by rw [hq]; omega) (certifiedBy_ownQC nd b) (.refl _)).and_right (processCertificate_mute _)
  -- the vote makes no difference to the certificate
  have hown := certifiedBy_ownQC nd b
  have hB := ((processCertificate_core nd (hcore.symm.trans hd.toSameCore)
    (hown.view.trans hqc.view.symm) (hown.blockID.trans hqc.blockID.symm)
    (hown.passes.trans hqc.passes.symm)).and_right (wp_self (m := processCertificate nd qc))).and_right
      (processCertificate_mute qc)
  refine (hA.trans hB).mono ?_
  rintro _ _ x e ⟨_, y, ⟨hxy, hmute⟩, ⟨hye, he⟩, hmute'⟩
  exact ⟨hxy.toSameCore.trans hye, hxy.sent.trans hmute.sent, hxy.votes.trans hmute.votes,
    processCertificate_settles hqc he, hmute'⟩

end Stored

end HotStuff

end Bamboo
