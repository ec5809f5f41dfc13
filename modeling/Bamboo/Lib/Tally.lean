import Mathlib

/-!
# Ballot boxes with a two-thirds threshold

For each subject a box of ballots, at most one for each voter.  A box that holds more than two thirds of
`total` is full: later ballots for its subject are ignored.  The ballot that fills a box is told so.

* `cast`, `discard`: a ballot, and the loss of a box with all its ballots;
* `length_keys_of_completes`: a box is filled by the ballot after `total * 2 / 3`;
* `feed`: a sequence of ballots, with `keys_feed_subset`, `lookup_feed` and `exists_completes`: who is in a box,
  with which ballot, and that enough voters fill it;
* `Once`: if no one casts two ballots for a subject, its box is filled at most once, discarded or not;
* `card_common`: two full boxes share more than a third of the voters.
-/

/-- Ballots, for each subject and each voter. -/
structure Tally (κ ν β : Type) where
  total : ℕ
  boxes : AList (fun _ : κ => AList (fun _ : ν => β))

namespace Tally

variable {κ ν β : Type} [DecidableEq κ] [DecidableEq ν]

/-- No ballots yet. -/
def new (total : ℕ) : Tally κ ν β := ⟨total, ∅⟩

section Operations

variable (t : Tally κ ν β)

/-- The ballots for a subject. -/
def box (k : κ) : AList (fun _ : ν => β) := (t.boxes.lookup k).getD ∅

/-- More than two thirds have voted on the subject. -/
def Full (k : κ) : Prop := t.total * 2 / 3 < (t.box k).keys.length

instance (k : κ) : Decidable (t.Full k) := inferInstanceAs (Decidable (_ < _))

/-- Put a ballot into its box, in place of the voter's earlier one. -/
def record (k : κ) (i : ν) (b : β) : Tally κ ν β :=
  { t with boxes := t.boxes.insert k ((t.box k).insert i b) }

/-- A ballot is cast; the answer is whether it fills the box. -/
def cast (k : κ) (i : ν) (b : β) : Bool × Tally κ ν β :=
  if t.Full k then (false, t) else (decide ((t.record k i b).Full k), t.record k i b)

/-- A box is lost. -/
def discard (k : κ) : Tally κ ν β := { t with boxes := t.boxes.erase k }

/-- A sequence of ballots. -/
def feed (cs : List (κ × ν × β)) : Tally κ ν β :=
  cs.foldl (fun t c => (t.cast c.1 c.2.1 c.2.2).2) t

end Operations

variable {t : Tally κ ν β} {k x : κ} {i j : ν} {b : β} {n : ℕ}

/-! ### One ballot -/

omit [DecidableEq ν] in
theorem box_new : (new n : Tally κ ν β).box k = ∅ := by simp [new, box]

theorem box_record :
    (t.record k i b).box x = if x = k then (t.box k).insert i b else t.box x := by
  unfold record
  by_cases h : x = k
  · subst h; simp [box]
  · simp [box, AList.lookup_insert_ne h, h]

omit [DecidableEq ν] in
theorem box_discard : (t.discard k).box x = if x = k then ∅ else t.box x := by
  unfold discard box
  by_cases h : x = k
  · subst h; simp
  · simp [AList.lookup_erase_ne h, h]

/-- A ballot of a new voter makes one more. -/
theorem length_keys_record (hi : i ∉ (t.box k).keys) :
    ((t.record k i b).box k).keys.length = (t.box k).keys.length + 1 := by
  rw [box_record, if_pos rfl, AList.keys_insert, List.length_cons, List.erase_of_not_mem hi]

/-- A second ballot of a voter does not count. -/
theorem length_keys_record_of_mem (hi : i ∈ (t.box k).keys) :
    ((t.record k i b).box k).keys.length = (t.box k).keys.length := by
  have hpos := List.length_pos_of_mem hi
  rw [box_record, if_pos rfl, AList.keys_insert, List.length_cons, List.length_erase_of_mem hi]
  omega

theorem mem_keys_record : j ∈ ((t.record k i b).box k).keys ↔ j = i ∨ j ∈ (t.box k).keys := by
  rw [box_record, if_pos rfl, ← AList.mem_keys, AList.mem_insert, AList.mem_keys]

/-- What `cast` does: nothing on a full box, else it records. -/
theorem cast_cases (t : Tally κ ν β) (k : κ) (i : ν) (b : β) :
    t.Full k ∧ t.cast k i b = (false, t) ∨
      ¬ t.Full k ∧ t.cast k i b = (decide ((t.record k i b).Full k), t.record k i b) := by
  unfold cast
  by_cases h : t.Full k
  · exact Or.inl ⟨h, if_pos h⟩
  · exact Or.inr ⟨h, if_neg h⟩

/-- The ballot fills the box. -/
def Completes (t : Tally κ ν β) (k : κ) (i : ν) (b : β) : Prop := (t.cast k i b).1 = true

theorem completes_iff : t.Completes k i b ↔ ¬ t.Full k ∧ (t.record k i b).Full k := by
  unfold Completes
  rcases cast_cases t k i b with ⟨h, he⟩ | ⟨h, he⟩
  · simp [he, h]
  · simp [he, h]

/-- **A box is filled by the first ballot above the threshold**, and it is one of a new voter. -/
theorem length_keys_of_completes (h : t.Completes k i b) :
    i ∉ (t.box k).keys ∧ (t.box k).keys.length = t.total * 2 / 3 ∧
      ((t.record k i b).box k).keys.length = t.total * 2 / 3 + 1 := by
  obtain ⟨hn, hf⟩ := completes_iff.1 h
  have hn' : ¬ t.total * 2 / 3 < (t.box k).keys.length := hn
  have hf' : t.total * 2 / 3 < ((t.record k i b).box k).keys.length := hf
  by_cases hi : i ∈ (t.box k).keys
  · rw [length_keys_record_of_mem hi] at hf'
    omega
  · rw [length_keys_record hi] at hf' ⊢
    exact ⟨hi, by omega, by omega⟩

theorem completes_of_length (hi : i ∉ (t.box k).keys)
    (hl : (t.box k).keys.length = t.total * 2 / 3) : t.Completes k i b := by
  refine completes_iff.2 ⟨?_, ?_⟩
  · show ¬ t.total * 2 / 3 < (t.box k).keys.length
    omega
  · show t.total * 2 / 3 < ((t.record k i b).box k).keys.length
    rw [length_keys_record hi]
    omega

theorem total_cast : (t.cast k i b).2.total = t.total := by
  rcases cast_cases t k i b with ⟨-, he⟩ | ⟨-, he⟩
  · rw [he]
  · rw [he]
    rfl

theorem box_cast_of_ne (h : x ≠ k) : (t.cast k i b).2.box x = t.box x := by
  rcases cast_cases t k i b with ⟨-, he⟩ | ⟨-, he⟩
  · rw [he]
  · rw [he, box_record, if_neg h]

/-- A full box stays full. -/
theorem Full.cast (h : t.Full x) : (t.cast k i b).2.Full x := by
  rcases cast_cases t k i b with ⟨-, he⟩ | ⟨hn, he⟩
  · rw [he]
    exact h
  · have hx : x ≠ k := fun hx => hn (hx ▸ h)
    unfold Full
    rw [total_cast, box_cast_of_ne hx]
    exact h

/-! ### A sequence of ballots -/

section Feed

variable {cs : List (κ × ν × β)}

theorem feed_append (t : Tally κ ν β) (cs : List (κ × ν × β)) (c : κ × ν × β) :
    t.feed (cs ++ [c]) = ((t.feed cs).cast c.1 c.2.1 c.2.2).2 := by
  simp [feed]

theorem total_feed (t : Tally κ ν β) (cs : List (κ × ν × β)) : (t.feed cs).total = t.total := by
  induction cs using List.reverseRecOn with
  | nil => rfl
  | append_singleton cs c ih => rw [feed_append, total_cast, ih]

/-- The voters of a sequence on a subject. -/
def voters (k : κ) (cs : List (κ × ν × β)) : List ν := (cs.filter (·.1 = k)).map (·.2.1)

omit [DecidableEq ν] in
theorem voters_append (c : κ × ν × β) :
    voters k (cs ++ [c]) = if c.1 = k then voters k cs ++ [c.2.1] else voters k cs := by
  unfold voters
  by_cases h : c.1 = k <;> simp [h]

/-- Who is in a box has voted on its subject. -/
theorem keys_feed_subset : (((new n).feed cs).box k).keys ⊆ voters k cs := by
  induction cs using List.reverseRecOn with
  | nil =>
    have h : ((new n : Tally κ ν β).feed []).box k = ∅ := box_new
    rw [h]
    exact fun j hj => by cases hj
  | append_singleton cs c ih =>
    intro j hj
    rw [feed_append] at hj
    rw [voters_append]
    by_cases hc : c.1 = k
    · rw [if_pos hc, List.mem_append, List.mem_singleton]
      subst hc
      rcases cast_cases ((new n).feed cs) c.1 c.2.1 c.2.2 with ⟨-, he⟩ | ⟨-, he⟩
      · rw [he] at hj
        exact Or.inl (ih hj)
      · rw [he] at hj
        exact (mem_keys_record.1 hj).symm.imp_left fun h => ih h
    · rw [if_neg hc]
      rw [box_cast_of_ne (Ne.symm hc)] at hj
      exact ih hj

/-- The last ballot of a voter on a subject. -/
def last (k : κ) (i : ν) (cs : List (κ × ν × β)) : Option β :=
  (cs.reverse.find? fun c => c.1 = k ∧ c.2.1 = i).map (·.2.2)

theorem last_append (c : κ × ν × β) :
    last k i (cs ++ [c]) = if c.1 = k ∧ c.2.1 = i then some c.2.2 else last k i cs := by
  unfold last
  rw [List.reverse_append, List.reverse_singleton, List.singleton_append, List.find?_cons]
  by_cases h : c.1 = k ∧ c.2.1 = i <;> simp [h]

/-- **While a box is not full it holds the last ballot of every voter.** -/
theorem lookup_feed (h : ¬ ((new n).feed cs).Full k) (i : ν) :
    (((new n).feed cs).box k).lookup i = last k i cs := by
  induction cs using List.reverseRecOn with
  | nil =>
    have h : ((new n : Tally κ ν β).feed []).box k = ∅ := box_new
    rw [h]
    rfl
  | append_singleton cs c ih =>
    rw [feed_append] at h ⊢
    have hn : ¬ ((new n).feed cs).Full k := fun hf => h hf.cast
    rw [last_append]
    by_cases hc : c.1 = k
    · subst hc
      rcases cast_cases ((new n).feed cs) c.1 c.2.1 c.2.2 with ⟨hf, -⟩ | ⟨-, he⟩
      · exact absurd hf hn
      · rw [he, box_record, if_pos rfl]
        by_cases hi : c.2.1 = i
        · rw [if_pos ⟨rfl, hi⟩, hi, AList.lookup_insert]
        · rw [if_neg (fun h => hi h.2), AList.lookup_insert_ne (Ne.symm hi)]
          exact ih hn
    · rw [if_neg (fun h => hc h.1), box_cast_of_ne (Ne.symm hc)]
      exact ih hn

theorem exists_last (h : i ∈ voters k cs) : ∃ b, last k i cs = some b := by
  unfold last
  obtain ⟨c, hc, rfl⟩ := List.mem_map.1 h
  obtain ⟨hm, hk⟩ := List.mem_filter.1 hc
  have hs : (cs.reverse.find? fun d => d.1 = k ∧ d.2.1 = c.2.1).isSome = true := by
    rw [List.find?_isSome]
    exact ⟨c, List.mem_reverse.2 hm, decide_eq_true ⟨of_decide_eq_true hk, rfl⟩⟩
  obtain ⟨d, hd⟩ := Option.isSome_iff_exists.1 hs
  exact ⟨d.2.2, by rw [hd]; rfl⟩

/-- While a box is not full every voter on its subject is in it. -/
theorem mem_keys_feed (h : ¬ ((new n).feed cs).Full k) :
    i ∈ (((new n).feed cs).box k).keys ↔ i ∈ voters k cs := by
  refine ⟨fun hi => keys_feed_subset hi, fun hi => ?_⟩
  obtain ⟨b, hb⟩ := exists_last hi
  rw [← AList.mem_keys, ← AList.lookup_isSome, lookup_feed h, hb]
  rfl

theorem card_voters_feed (h : ¬ ((new n).feed cs).Full k) :
    (voters k cs).toFinset.card = (((new n).feed cs).box k).keys.length := by
  rw [← List.toFinset_card_of_nodup (AList.keys_nodup _)]
  congr 1
  ext j
  rw [List.mem_toFinset, List.mem_toFinset, mem_keys_feed h]

/-- A full box has been filled by more than two thirds of different voters. -/
theorem lt_card_voters (h : ((new n).feed cs).Full k) : n * 2 / 3 < (voters k cs).toFinset.card := by
  have hf : ((new n).feed cs).total * 2 / 3 < (((new n).feed cs).box k).keys.length := h
  rw [total_feed, ← List.toFinset_card_of_nodup (AList.keys_nodup _)] at hf
  refine Nat.lt_of_lt_of_le hf (Finset.card_le_card fun j hj => ?_)
  exact List.mem_toFinset.2 (keys_feed_subset (List.mem_toFinset.1 hj))

/-- **When a sequence fills a box**, in terms of the ballots alone. -/
theorem completes_feed_iff :
    ((new n).feed cs).Completes k i b ↔
      (voters k cs).toFinset.card = n * 2 / 3 ∧ i ∉ voters k cs := by
  constructor
  · intro h
    obtain ⟨hi, hl, -⟩ := length_keys_of_completes h
    have hn := (completes_iff.1 h).1
    rw [mem_keys_feed hn] at hi
    rw [← card_voters_feed hn, total_feed] at hl
    exact ⟨hl, hi⟩
  · rintro ⟨hl, hi⟩
    have hn : ¬ ((new n).feed cs).Full k := fun hf => by
      have := lt_card_voters hf
      omega
    refine completes_of_length (fun h => hi (keys_feed_subset h)) ?_
    rw [← card_voters_feed hn, total_feed]
    exact hl

/-- **Enough voters fill a box.** -/
theorem exists_completes (h : n * 2 / 3 < (voters k cs).toFinset.card) :
    ∃ before c after, cs = before ++ c :: after ∧ c.1 = k ∧
      ((new n).feed before).Completes k c.2.1 c.2.2 := by
  induction cs using List.reverseRecOn with
  | nil => exact absurd h (by simp [voters])
  | append_singleton cs c ih =>
    by_cases hlt : n * 2 / 3 < (voters k cs).toFinset.card
    · obtain ⟨before, d, after, rfl, hk, hd⟩ := ih hlt
      exact ⟨before, d, after ++ [c], by simp, hk, hd⟩
    · -- the last ballot makes the difference
      rw [voters_append] at h
      by_cases hc : c.1 = k
      · rw [if_pos hc, List.toFinset_append, List.toFinset_cons, List.toFinset_nil,
          Finset.union_insert, Finset.union_empty] at h
        have hi : c.2.1 ∉ (voters k cs).toFinset := fun hi => by
          rw [Finset.insert_eq_of_mem hi] at h
          exact hlt h
        rw [Finset.card_insert_of_notMem hi] at h
        refine ⟨cs, c, [], rfl, hc, completes_feed_iff.2 ⟨by omega, ?_⟩⟩
        exact fun h => hi (List.mem_toFinset.2 h)
      · rw [if_neg hc] at h
        exact absurd h hlt

end Feed

/-! ### Two full boxes -/

/-- Sets that each hold more than two thirds of `n` voters have a third of them in common. -/
theorem card_common {ids : List ν} (hids : ids.length = n) (hn : 1 ≤ n) {l l' : List ν}
    (hl : l.Nodup) (hl' : l'.Nodup) (hsub : l ⊆ ids) (hsub' : l' ⊆ ids)
    (hlen : n * 2 / 3 < l.length) (hlen' : n * 2 / 3 < l'.length) :
    (n - 1) / 3 + 1 ≤ (l.toFinset ∩ l'.toFinset).card := by
  have hu : (l.toFinset ∪ l'.toFinset).card ≤ n := by
    refine Nat.le_trans (Finset.card_le_card ?_) (hids ▸ List.toFinset_card_le ids)
    intro j hj
    rw [Finset.mem_union, List.mem_toFinset, List.mem_toFinset] at hj
    exact List.mem_toFinset.2 (hj.elim (fun h => hsub h) fun h => hsub' h)
  have hadd := Finset.card_union_add_card_inter l.toFinset l'.toFinset
  rw [List.toFinset_card_of_nodup hl, List.toFinset_card_of_nodup hl'] at hadd
  omega

/-- A third of the voters can be absent. -/
theorem lt_of_absent (hn : 1 ≤ n) : n * 2 / 3 < n - (n - 1) / 3 := by omega

/-! ### A box is filled once -/

/-- The box of `k` after ballots by `seen`: whether it has been filled (`done`), and if it has, that it
still is full or has been discarded, with more than two thirds of the voters spent. -/
structure Once (k : κ) (seen : List ν) (done : Prop) (t : Tally κ ν β) : Prop where
  keys : (t.box k).keys ⊆ seen
  spent : done → t.Full k ∨ ∃ spent : List ν, spent.Nodup ∧ t.total * 2 / 3 < spent.length ∧
    spent ⊆ seen ∧ ∀ i ∈ (t.box k).keys, i ∉ spent

namespace Once

variable {seen : List ν} {done : Prop}

omit [DecidableEq ν] in
theorem new : Once k seen False (new n : Tally κ ν β) where
  keys := by
    rw [box_new]
    exact fun j hj => by cases hj
  spent := False.elim

omit [DecidableEq ν] in
theorem mono {seen' : List ν} {done' : Prop} (h : Once k seen done t)
    (hs : seen ⊆ seen') (hd : done' → done) : Once k seen' done' t where
  keys := List.Subset.trans h.keys hs
  spent := fun hd' => (h.spent (hd hd')).imp_right fun ⟨l, hnd, hlen, hsub, hdisj⟩ =>
    ⟨l, hnd, hlen, List.Subset.trans hsub hs, hdisj⟩

omit [DecidableEq ν] in
theorem congr {t' : Tally κ ν β} (h : Once k seen done t) (hb : t'.box k = t.box k)
    (ht : t'.total = t.total) : Once k seen done t' where
  keys := hb ▸ h.keys
  spent := fun hd => by
    unfold Full
    rw [hb, ht]
    exact h.spent hd

omit [DecidableEq ν] in
theorem discard (h : Once k seen done t) (x : κ) : Once k seen done (t.discard x) := by
  by_cases hx : k = x
  · subst hx
    have hbox : (t.discard k).box k = ∅ := by rw [box_discard, if_pos rfl]
    have hout : ∀ i ∈ ((t.discard k).box k).keys, ∀ l : List ν, i ∉ l := fun i hi => by
      rw [hbox] at hi
      cases hi
    refine ⟨fun i hi => absurd hi (hout i hi _), fun hd => Or.inr ?_⟩
    rcases h.spent hd with hf | ⟨l, hnd, hlen, hsub, -⟩
    · -- the box that is lost was full: its voters are spent
      exact ⟨(t.box k).keys, AList.keys_nodup _, hf, h.keys, fun i hi => hout i hi _⟩
    · exact ⟨l, hnd, hlen, hsub, fun i hi => hout i hi _⟩
  · exact h.congr (by rw [box_discard, if_neg hx]) rfl

/-- **A ballot of a new voter** does not fill the box a second time. -/
theorem cast (h : Once k seen done t) {ids : List ν} (hids : ids.length ≤ t.total) (hi : i ∉ seen)
    (hsub : i :: seen ⊆ ids) (b : β) :
    (t.Completes k i b → ¬ done) ∧
      Once k (i :: seen) (done ∨ t.Completes k i b) (t.cast k i b).2 := by
  have hseen : seen ⊆ i :: seen := List.subset_cons_self i seen
  rcases cast_cases t k i b with ⟨hf, he⟩ | ⟨hn, he⟩
  · have hno : ¬ t.Completes k i b := fun hc => (completes_iff.1 hc).1 hf
    rw [he]
    exact ⟨fun hc => absurd hc hno, fun j hj => hseen (h.keys hj), fun _ => Or.inl hf⟩
  · have hkey : i ∉ (t.box k).keys := fun hk => hi (h.keys hk)
    rw [he]
    -- the new box is disjoint from the spent voters, so it is too small to be full
    have hsmall : ∀ l : List ν, l.Nodup → t.total * 2 / 3 < l.length → l ⊆ seen →
        (∀ j ∈ (t.box k).keys, j ∉ l) → ¬ (t.record k i b).Full k := by
      intro l hnd hlen hl hdisj hfull
      have hfull' : t.total * 2 / 3 < ((t.record k i b).box k).keys.length := hfull
      have hnew : ∀ j ∈ ((t.record k i b).box k).keys, j ∈ i :: seen ∧ j ∉ l := by
        intro j hj
        rcases mem_keys_record.1 hj with rfl | hj
        · exact ⟨List.mem_cons_self, fun h => hi (hl h)⟩
        · exact ⟨hseen (h.keys hj), hdisj j hj⟩
      have hcard : (((t.record k i b).box k).keys ++ l).length ≤ ids.length := by
        refine (List.Nodup.subperm (List.nodup_append'.2 ⟨AList.keys_nodup _, hnd, ?_⟩) ?_).length_le
        · exact fun j hj hl' => (hnew j hj).2 hl'
        · intro j hj
          rcases List.mem_append.1 hj with hj | hj
          · exact hsub (hnew j hj).1
          · exact hsub (hseen (hl hj))
      rw [List.length_append] at hcard
      omega
    refine ⟨fun hc hd => ?_, ?_, ?_⟩
    · rcases h.spent hd with hf | ⟨l, hnd, hlen, hl, hdisj⟩
      · exact hn hf
      · exact hsmall l hnd hlen hl hdisj (completes_iff.1 hc).2
    · intro j hj
      rcases mem_keys_record.1 hj with rfl | hj
      · exact List.mem_cons_self
      · exact hseen (h.keys hj)
    · rintro (hd | hc)
      · rcases h.spent hd with hf | ⟨l, hnd, hlen, hl, hdisj⟩
        · exact absurd hf hn
        · refine Or.inr ⟨l, hnd, hlen, fun j hj => hseen (hl hj), fun j hj => ?_⟩
          rcases mem_keys_record.1 hj with rfl | hj
          · exact fun h => hi (hl h)
          · exact hdisj j hj
      · exact Or.inl (completes_iff.1 hc).2

end Once

end Tally
