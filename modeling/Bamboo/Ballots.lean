import Bamboo.FourNodes
import Bamboo.Quorum

/-!
# Sequences of votes and of timeouts

What `Quorum.Add` and `TimeoutController.AddTmo` answer to a sequence of messages.  Both are ballot boxes
with the threshold `size > total * 2 / 3`.

* `Quorum.Returns`, `TimeoutController.Returns`: a call in a sequence returned a certificate;
* `quorums_intersect`: two certificates have a third of the nodes in common, and `n - f` nodes suffice
  for one;
* `view_of_votes_iff`: when the view of a certificate is that of all its votes.
-/

namespace Bamboo

namespace Quorum

/-- The quorum after a sequence of votes. -/
def feed (cf : Config) (q : Quorum) (vs : List Vote) : Quorum :=
  vs.foldl (fun q v => (q.add cf v).2) q

/-- `Add` returned the certificate in a sequence of votes to a new quorum, and `q` is the quorum then. -/
structure Returns (cf : Config) (n : ℕ) (vs : List Vote) (qc : QC) (q : Quorum) : Prop where
  call : ∃ before v after, vs = before ++ v :: after ∧
    ((new n).feed cf before).add cf v = (some qc, q)

/-- A vote as a ballot. -/
def ballot (v : Vote) : ℕ × NodeID × Vote := (v.blockID, v.voter, v)

variable {cf : Config} {q : Quorum} {n : ℕ} {vs : List Vote}

theorem feed_append (v : Vote) : q.feed cf (vs ++ [v]) = ((q.feed cf vs).add cf v).2 := by
  simp [feed]

theorem tally_feed : (q.feed cf vs).tally = q.tally.feed (vs.map ballot) := by
  induction vs using List.reverseRecOn with
  | nil => rfl
  | append_singleton vs v ih =>
    rw [feed_append, tally_add, ih, List.map_append, List.map_singleton, Tally.feed_append]
    rfl

theorem wf_feed (hq : q.WF) : (q.feed cf vs).WF := by
  induction vs using List.reverseRecOn with
  | nil => exact hq
  | append_singleton vs v ih =>
    rw [feed_append]
    exact wf_add ih v

/-- The voters for a block. -/
def voters (id : ℕ) (vs : List Vote) : List NodeID := (vs.filter (·.blockID = id)).map Vote.voter

theorem voters_ballot (id : ℕ) (vs : List Vote) :
    Tally.voters id (vs.map ballot) = voters id vs := by
  unfold Tally.voters voters
  rw [List.filter_map, List.map_map]
  rfl

/-- **A certificate's signers**: pairwise distinct, one more than two thirds, all voters for the block. -/
theorem Returns.signers {qc : QC} (h : Returns cf n vs qc q) :
    qc.signers.Nodup ∧ qc.signers.length = n * 2 / 3 + 1 ∧ qc.signers ⊆ voters qc.blockID vs := by
  obtain ⟨before, v, after, rfl, ha⟩ := h.call
  have hsome : (((new n).feed cf before).add cf v).1 = some qc := by rw [ha]
  obtain ⟨hid, hperm⟩ := signers_perm (wf_feed (wf_new n)) hsome
  have hlen := length_signers (wf_feed (wf_new n)) hsome
  have htotal : ((new n).feed cf before).total = n :=
    (congrArg Tally.total tally_feed).trans (Tally.total_feed _ _)
  rw [htotal] at hlen
  refine ⟨hperm.nodup_iff.2 (AList.keys_nodup _), hlen, fun i hi => ?_⟩
  rw [hid]
  unfold voters
  rw [List.filter_append, List.map_append, List.mem_append]
  rcases Tally.mem_keys_record.1 (hperm.mem_iff.1 hi) with rfl | hi
  · exact Or.inr (by simp)
  · rw [tally_feed] at hi
    have := Tally.keys_feed_subset (n := n) hi
    rw [voters_ballot] at this
    exact Or.inl this

/-- **Enough voters make a certificate.** -/
theorem exists_returns (cf : Config) {id : ℕ} (h : n * 2 / 3 < (voters id vs).toFinset.card) :
    ∃ qc q, Returns cf n vs qc q ∧ qc.blockID = id := by
  rw [← voters_ballot] at h
  obtain ⟨before, c, after, heq, rfl, hc⟩ := Tally.exists_completes h
  obtain ⟨before', rest, rfl, rfl, hrest⟩ := List.map_eq_append_iff.1 heq
  obtain ⟨v, after', rfl, rfl, -⟩ := List.map_eq_cons_iff.1 hrest
  have hc' : ((new n).feed cf before').tally.Completes v.blockID v.voter v := by
    rw [tally_feed]
    exact hc
  obtain ⟨qc, hqc⟩ := add_eq_some_iff.2 hc'
  refine ⟨qc, (((new n).feed cf before').add cf v).2, ⟨before', v, after', rfl, ?_⟩, ?_⟩
  · rw [← hqc]
  · exact (signers_perm (wf_feed (wf_new n)) hqc).1

/-- The last vote of a node for a block. -/
def lastVote (id : ℕ) (i : NodeID) (vs : List Vote) : Option Vote :=
  vs.reverse.find? fun w => w.blockID = id ∧ w.voter = i

theorem lastVote_ballot (id : ℕ) (i : NodeID) (vs : List Vote) :
    Tally.last id i (vs.map ballot) = lastVote id i vs := by
  unfold Tally.last lastVote
  rw [← List.map_reverse, List.find?_map, Option.map_map]
  exact congrFun Option.map_id _

/-- Whenever a new voter for a block comes after exactly two thirds of the nodes, these have voted for the
block in the same view as the new one, each in its last vote. -/
def OneView (n : ℕ) (vs : List Vote) : Prop :=
  ∀ before v after, vs = before ++ v :: after →
    (voters v.blockID before).toFinset.card = n * 2 / 3 → v.voter ∉ voters v.blockID before →
    ∀ i w, lastVote v.blockID i before = some w → w.view = v.view

/-- What a call that returns a certificate has on record: the vote itself and the last vote of every
node that voted for the block before. -/
theorem returned_cases {before : List Vote} {v : Vote} {qc : QC}
    (h : ((new n).feed cf before).add cf v = (some qc, q)) :
    (voters v.blockID before).toFinset.card = n * 2 / 3 ∧ v.voter ∉ voters v.blockID before ∧
      qc.view = v.view ∧ qc.blockID = v.blockID ∧
      ∀ w, w.blockID = v.blockID → (q.Has w ↔ w = v ∨ lastVote v.blockID w.voter before = some w) := by
  have hc := add_eq_some_iff.1 ⟨qc, congrArg Prod.fst h⟩
  rw [tally_feed] at hc
  obtain ⟨hcard, hmem⟩ := Tally.completes_feed_iff.1 hc
  rw [voters_ballot] at hcard hmem
  refine ⟨hcard, hmem, ?_⟩
  rcases add_cases cf (wf_feed (wf_new n)) v with he | he | ⟨qc', he, hcert⟩
  · rw [he] at h
    cases h
  · rw [he] at h
    cases h
  · rw [he] at h
    cases h
    refine ⟨hcert.view, hcert.blockID, fun w hw => ?_⟩
    unfold Has
    rw [votesFor_record, hw, if_pos rfl]
    have hlook : (((new n).feed cf before).votesFor v.blockID).lookup w.voter =
        lastVote v.blockID w.voter before := by
      rw [← lastVote_ballot]
      refine Eq.trans ?_ (Tally.lookup_feed (Tally.completes_iff.1 hc).1 w.voter)
      exact congrArg (fun t : Tally ℕ NodeID Vote => (t.box v.blockID).lookup w.voter) tally_feed
    by_cases hv : w.voter = v.voter
    · rw [hv, AList.lookup_insert, Option.some.injEq]
      have hnone : lastVote v.blockID v.voter before ≠ some w := fun hl => by
        have hf := List.mem_of_find?_eq_some hl
        refine hmem (List.mem_map.2 ⟨w, List.mem_filter.2 ⟨List.mem_reverse.1 hf, ?_⟩, hv⟩)
        exact decide_eq_true hw
      exact ⟨fun h => Or.inl h.symm, fun h => (h.resolve_right hnone).symm⟩
    · rw [AList.lookup_insert_ne hv, hlook]
      exact ⟨Or.inr, fun h => h.resolve_left fun hwv => hv (congrArg Vote.voter hwv)⟩

/-- **The view of a certificate is that of its votes** exactly when the votes that complete a quorum are
in the view of those before them. -/
theorem view_of_votes_iff (cf : Config) (n : ℕ) (vs : List Vote) :
    (∀ qc q, Returns cf n vs qc q → ∀ w, q.Has w → w.blockID = qc.blockID → w.view = qc.view) ↔
      OneView n vs := by
  constructor
  · intro h before v after hvs hcard hmem i w hw
    have hc : ((new n).feed cf before).tally.Completes v.blockID v.voter v := by
      rw [tally_feed]
      refine Tally.completes_feed_iff.2 ?_
      rw [voters_ballot]
      exact ⟨hcard, hmem⟩
    obtain ⟨qc, hqc⟩ : ∃ qc, (((new n).feed cf before).add cf v).1 = some qc := add_eq_some_iff.2 hc
    have hadd : ((new n).feed cf before).add cf v = (some qc, (((new n).feed cf before).add cf v).2) := by
      rw [← hqc]
    obtain ⟨-, -, hview, hid, hhas⟩ := returned_cases hadd
    have hwv := List.find?_some hw
    obtain ⟨hwid, hwi⟩ := of_decide_eq_true hwv
    rw [← hview]
    refine h qc _ ⟨before, v, after, hvs, hadd⟩ w ((hhas w hwid).2 (Or.inr ?_)) (hwid.trans hid.symm)
    rw [hwi]
    exact hw
  · intro h qc q hret w hhas hwid
    obtain ⟨before, v, after, hvs, hadd⟩ := hret.call
    obtain ⟨hcard, hmem, hview, hid, hrec⟩ := returned_cases hadd
    rw [hview]
    rcases (hrec w (hwid.trans hid)).1 hhas with rfl | hl
    · rfl
    · exact h before v after hvs hcard hmem w.voter w hl

/-- Votes for the block with id 1 in different views: of nodes 1 and 2 in view 1, of node 3 in view 5. -/
def mixedViews : List Vote :=
  [⟨1, "1", 1, []⟩, ⟨1, "2", 1, []⟩, ⟨5, "3", 1, []⟩]

/-- Two votes of view 1 are counted in a certificate of view 5. -/
theorem view_of_last_vote :
    ∃ qc q w, Returns (FourNodes.config fun _ => "1") 4 mixedViews qc q ∧ q.Has w ∧
      w.blockID = qc.blockID ∧ w.view = 1 ∧ qc.view = 5 := by
  have hcall : ∃ qc q, ((new 4).feed (FourNodes.config fun _ => "1") (mixedViews.take 2)).add
      (FourNodes.config fun _ => "1") ⟨5, "3", 1, []⟩ = (some qc, q) := ⟨_, _, rfl⟩
  obtain ⟨qc, q, hadd⟩ := hcall
  obtain ⟨-, -, hview, hid, hhas⟩ := returned_cases hadd
  have hfirst : q.Has ⟨1, "1", 1, []⟩ := (hhas ⟨1, "1", 1, []⟩ rfl).2 (Or.inr (by decide))
  exact ⟨qc, q, ⟨1, "1", 1, []⟩, ⟨_, _, [], rfl, hadd⟩, hfirst, hid.symm, rfl, hview⟩

end Quorum

namespace TimeoutController

/-- The table after a sequence of timeouts. -/
def feed (tcl : TimeoutController) (ts : List TMO) : TimeoutController :=
  ts.foldl (fun tcl t => (tcl.addTmo t).2) tcl

/-- `AddTmo` returned the certificate in a sequence of timeouts to a new table, and `requesters` are the
nodes on record then: what `NewTC` is given. -/
structure Returns (n : ℕ) (ts : List TMO) (tc : TC) (requesters : List NodeID) : Prop where
  call : ∃ before t after tcl, ts = before ++ t :: after ∧
    ((new n).feed before).addTmo t = (some tc, tcl) ∧ requesters = (tcl.timeoutsFor tc.view).keys

/-- A timeout as a ballot: the view is the subject. -/
def ballot (t : TMO) : ℤ × NodeID × TMO := (t.view, t.nodeID, t)

/-- The table as ballot boxes. -/
def tally (tcl : TimeoutController) : Tally ℤ NodeID TMO := ⟨tcl.n, tcl.timeouts⟩

/-- The nodes that timed out of a view. -/
def senders (view : ℤ) (ts : List TMO) : List NodeID := (ts.filter (·.view = view)).map TMO.nodeID

variable {tcl : TimeoutController} {n : ℕ} {ts : List TMO} {t : TMO} {tc : TC}

theorem superMajority_iff {view : ℤ} : tcl.superMajority view = true ↔ tcl.tally.Full view := by
  unfold superMajority Tally.Full
  rw [decide_eq_true_iff, AList.keys, List.keys, List.length_map]
  rfl

/-- What `AddTmo` does, as a ballot. -/
theorem addTmo_cases (tcl : TimeoutController) (t : TMO) :
    (tcl.addTmo t).2.tally = (tcl.tally.cast t.view t.nodeID t).2 ∧
      (∀ tc, (tcl.addTmo t).1 = some tc → tc.view = t.view) ∧
      ((∃ tc, (tcl.addTmo t).1 = some tc) ↔ tcl.tally.Completes t.view t.nodeID t) := by
  unfold addTmo
  rcases Tally.cast_cases tcl.tally t.view t.nodeID t with ⟨hf, he⟩ | ⟨hn, he⟩
  · rw [he, if_pos (superMajority_iff.2 hf)]
    have hno : ¬ tcl.tally.Completes t.view t.nodeID t := fun hc => (Tally.completes_iff.1 hc).1 hf
    refine ⟨rfl, fun tc h => (by cases h), iff_of_false ?_ hno⟩
    rintro ⟨tc, h⟩
    cases h
  · rw [he, if_neg fun h => hn (superMajority_iff.1 h), Tally.completes_iff]
    dsimp only
    split_ifs with hm
    · refine ⟨rfl, fun tc h => by cases h; rfl, iff_of_true ⟨_, rfl⟩ ⟨hn, ?_⟩⟩
      exact superMajority_iff.1 hm
    · refine ⟨rfl, fun tc h => (by cases h), iff_of_false ?_ fun h => hm (superMajority_iff.2 h.2)⟩
      rintro ⟨tc, h⟩
      cases h

theorem feed_append (t : TMO) : tcl.feed (ts ++ [t]) = ((tcl.feed ts).addTmo t).2 := by
  simp [feed]

theorem tally_feed : (tcl.feed ts).tally = tcl.tally.feed (ts.map ballot) := by
  induction ts using List.reverseRecOn with
  | nil => rfl
  | append_singleton ts t ih =>
    rw [feed_append, (addTmo_cases _ t).1, ih, List.map_append, List.map_singleton, Tally.feed_append]
    rfl

theorem senders_ballot (view : ℤ) (ts : List TMO) :
    Tally.voters view (ts.map ballot) = senders view ts := by
  unfold Tally.voters senders
  rw [List.filter_map, List.map_map]
  rfl

/-- The requesters of a timeout certificate: pairwise distinct, one more than two thirds, all of them
senders for the view. -/
theorem Returns.requesters {req : List NodeID} (h : Returns n ts tc req) :
    req.Nodup ∧ req.length = n * 2 / 3 + 1 ∧ req ⊆ senders tc.view ts := by
  obtain ⟨before, t, after, tcl, rfl, ha, rfl⟩ := h.call
  obtain ⟨htally, hview, hiff⟩ := addTmo_cases ((new n).feed before) t
  rw [ha] at htally hview hiff
  have hc := hiff.1 ⟨tc, rfl⟩
  have hbox : tcl.timeoutsFor tc.view =
      (((new n).feed before).tally.record t.view t.nodeID t).box t.view := by
    rcases Tally.cast_cases ((new n).feed before).tally t.view t.nodeID t with ⟨hf, -⟩ | ⟨-, he⟩
    · exact absurd hf (Tally.completes_iff.1 hc).1
    · rw [he] at htally
      rw [hview tc rfl]
      exact congrArg (Tally.box · t.view) htally
  obtain ⟨-, -, hlen⟩ := Tally.length_keys_of_completes hc
  rw [← hbox, tally_feed, Tally.total_feed] at hlen
  refine ⟨AList.keys_nodup _, hlen, fun i hi => ?_⟩
  rw [hbox] at hi
  unfold senders
  rw [List.filter_append, List.map_append, List.mem_append, hview tc rfl]
  rcases Tally.mem_keys_record.1 hi with rfl | hi
  · exact Or.inr (by simp)
  · rw [tally_feed] at hi
    have := Tally.keys_feed_subset (n := n) hi
    rw [senders_ballot] at this
    exact Or.inl this

theorem exists_returns {view : ℤ} (h : n * 2 / 3 < (senders view ts).toFinset.card) :
    ∃ tc req, Returns n ts tc req ∧ tc.view = view := by
  rw [← senders_ballot] at h
  obtain ⟨before, c, after, heq, rfl, hc⟩ := Tally.exists_completes h
  obtain ⟨before', rest, rfl, rfl, hrest⟩ := List.map_eq_append_iff.1 heq
  obtain ⟨t, after', rfl, rfl, -⟩ := List.map_eq_cons_iff.1 hrest
  have hc' : ((new n).feed before').tally.Completes t.view t.nodeID t := by
    rw [tally_feed]
    exact hc
  obtain ⟨-, hview, hiff⟩ := addTmo_cases ((new n).feed before') t
  obtain ⟨tc, htc⟩ := hiff.2 hc'
  refine ⟨tc, _, ⟨before', t, after', (((new n).feed before').addTmo t).2, rfl, ?_, rfl⟩, hview tc htc⟩
  rw [← htc]

end TimeoutController

/-- **Quorum intersection.**  With `f = (n - 1) / 3`, two certificates for votes of `n` nodes have at least
`f + 1` signers in common, and the votes of `n - f` nodes for a block make a certificate; the same holds
for timeout certificates. -/
theorem quorums_intersect (n : ℕ) (hn : 1 ≤ n) (ids : List NodeID) (hids : ids.length = n) :
    (∀ cf cf' vs vs' qc qc' q q', (∀ v ∈ vs, v.voter ∈ ids) → (∀ v ∈ vs', v.voter ∈ ids) →
      Quorum.Returns cf n vs qc q → Quorum.Returns cf' n vs' qc' q' →
      (n - 1) / 3 + 1 ≤ (qc.signers.toFinset ∩ qc'.signers.toFinset).card) ∧
    (∀ cf vs id, n - (n - 1) / 3 ≤ (Quorum.voters id vs).toFinset.card →
      ∃ qc q, Quorum.Returns cf n vs qc q ∧ qc.blockID = id) ∧
    (∀ ts ts' tc tc' req req', (∀ t ∈ ts, t.nodeID ∈ ids) → (∀ t ∈ ts', t.nodeID ∈ ids) →
      TimeoutController.Returns n ts tc req → TimeoutController.Returns n ts' tc' req' →
      (n - 1) / 3 + 1 ≤ (req.toFinset ∩ req'.toFinset).card) ∧
    (∀ ts view, n - (n - 1) / 3 ≤ (TimeoutController.senders view ts).toFinset.card →
      ∃ tc req, TimeoutController.Returns n ts tc req ∧ tc.view = view) := by
  have hlt := Tally.lt_of_absent hn
  refine ⟨?_, ?_, ?_, ?_⟩
  · intro cf cf' vs vs' qc qc' q q' hvs hvs' h h'
    obtain ⟨hnd, hlen, hsub⟩ := h.signers
    obtain ⟨hnd', hlen', hsub'⟩ := h'.signers
    have hin : ∀ {id : ℕ} {us : List Vote}, (∀ v ∈ us, v.voter ∈ ids) → Quorum.voters id us ⊆ ids := by
      intro id us hus i hi
      obtain ⟨v, hv, rfl⟩ := List.mem_map.1 hi
      exact hus v (List.mem_filter.1 hv).1
    exact Tally.card_common hids hn hnd hnd' (List.Subset.trans hsub (hin hvs))
      (List.Subset.trans hsub' (hin hvs')) (by omega) (by omega)
  · intro cf vs id h
    exact Quorum.exists_returns cf (by omega)
  · intro ts ts' tc tc' req req' hts hts' h h'
    obtain ⟨hnd, hlen, hsub⟩ := h.requesters
    obtain ⟨hnd', hlen', hsub'⟩ := h'.requesters
    have hin : ∀ {view : ℤ} {us : List TMO}, (∀ t ∈ us, t.nodeID ∈ ids) →
        TimeoutController.senders view us ⊆ ids := by
      intro view us hus i hi
      obtain ⟨t, ht, rfl⟩ := List.mem_map.1 hi
      exact hus t (List.mem_filter.1 ht).1
    exact Tally.card_common hids hn hnd hnd' (List.Subset.trans hsub (hin hts))
      (List.Subset.trans hsub' (hin hts')) (by omega) (by omega)
  · intro ts view h
    exact TimeoutController.exists_returns (by omega)

/-- Of four nodes, the votes of the first three for one block and of the last three for another make two
certificates, with two signers in common. -/
theorem quorums_intersect_fourNodes :
    ∃ qc qc' q q', Quorum.Returns (FourNodes.config fun _ => "1") 4 Quorum.mixedViews qc q ∧
      Quorum.Returns (FourNodes.config fun _ => "1") 4
        [⟨2, "2", 2, []⟩, ⟨2, "3", 2, []⟩, ⟨2, "4", 2, []⟩] qc' q' ∧
      2 ≤ (qc.signers.toFinset ∩ qc'.signers.toFinset).card := by
  have h := quorums_intersect 4 (by decide) FourNodes.members rfl
  have hret : ∃ qc q, Quorum.Returns (FourNodes.config fun _ => "1") 4 Quorum.mixedViews qc q :=
    ⟨_, _, Quorum.mixedViews.take 2, ⟨5, "3", 1, []⟩, [], rfl, rfl⟩
  have hret' : ∃ qc q, Quorum.Returns (FourNodes.config fun _ => "1") 4
      [⟨2, "2", 2, []⟩, ⟨2, "3", 2, []⟩, ⟨2, "4", 2, []⟩] qc q :=
    ⟨_, _, [⟨2, "2", 2, []⟩, ⟨2, "3", 2, []⟩], ⟨2, "4", 2, []⟩, [], rfl, rfl⟩
  obtain ⟨qc, q, hret⟩ := hret
  obtain ⟨qc', q', hret'⟩ := hret'
  refine ⟨qc, qc', q, q', hret, hret', h.1 _ _ _ _ qc qc' q q' ?_ ?_ hret hret'⟩
  · decide
  · decide

end Bamboo
