import Bamboo.FourNodes
import Bamboo.Lib.Deque

/-!
# The pool of transactions

Transactions of clients enter the pool at the back, if it is not too full, and leave it at the front in the payload
of a proposal.  Those of a forked block come back at the front.

* `Backend`: the list, with its Bloom filter, and `some`, which takes a payload from it;
* `perform`, `performAll`: calls of `AddTxn`, `CollectTxn` and `GeneratePayload`;
* `Run`, `runs_deque`: what the calls return, and that the pool is a queue with two entrances;
* `lossless_queue`: **no transaction is lost or doubled, and in which order they leave**;
* `forked_undoes_iff`: when a forked block puts its payload back as it was.
-/

namespace Bamboo

/-! ### The Bloom filter -/

/-- `BloomFilter`: the bits that are set. -/
structure BloomFilter where
  set : Finset ℕ

namespace BloomFilter

/-- The seeds of the six hash functions. -/
def seeds : List ℕ := [7, 11, 13, 31, 37, 61]

/-- `SimpleHash.hash`, in `uint` arithmetic, with the capacity `DEFAULT_SIZE`. -/
def hash (seed : ℕ) (value : String) : ℕ :=
  (2 ^ 25 - 1) &&& value.toUTF8.toList.foldl (fun result c => (result * seed + c.toNat) % 2 ^ 64) 0

/-- `BloomFilter.Add`. -/
def add (bf : BloomFilter) (value : String) : BloomFilter :=
  ⟨seeds.foldl (fun set seed => insert (hash seed value) set) bf.set⟩

end BloomFilter

/-! ### The backend -/

/-- What the pool needs to know of a transaction. -/
class Identified (τ : Type) where
  id : τ → String

instance : Identified Transaction := ⟨Transaction.id⟩

/-- A transaction with a label. -/
instance {τ : Type} [Identified τ] : Identified (τ × ℕ) := ⟨fun t => Identified.id t.1⟩

/-- `mempool.Backend`.  The counter is an `int64` that no run can fill. -/
structure Backend (τ : Type) where
  txns : List τ
  limit : ℤ
  totalReceived : ℕ
  bloom : BloomFilter

namespace Backend

variable {τ : Type}

/-- `NewBackend`. -/
def new (limit : ℤ) : Backend τ := ⟨[], limit, 0, ⟨∅⟩⟩

/-- `Backend.insertBack`. -/
def insertBack (txn : Option τ) : Go (Backend τ) Unit := do
  match txn with
  | none => return
  | .some txn =>
    let b ← get
    if b.limit < b.txns.length then return
    set { b with totalReceived := b.totalReceived + 1, txns := b.txns ++ [txn] }

/-- `Backend.insertFront`. -/
def insertFront (txn : Option τ) : Go (Backend τ) Unit := do
  match txn with
  | none => return
  | .some txn => modify fun b => { b with txns := txn :: b.txns }

/-- `Backend.front`; all elements of the list are transactions. -/
def front : Go (Backend τ) (Option τ) := do
  let b ← get
  match b.txns with
  | [] => return none
  | txn :: rest =>
    set { b with txns := rest }
    return .some txn

/-- The loop of `some`. -/
def someLoop : ℕ → List (Option τ) → Go (Backend τ) (List (Option τ))
  | 0, batch => return batch
  | k + 1, batch => do
    let tx ← front
    someLoop k (batch ++ [tx])

/-- `Backend.some`, for a batch size that is not negative. -/
protected def some (n : ℕ) : Go (Backend τ) (List (Option τ)) := do
  let size := (← get).txns.length
  let batchSize := if n ≤ size then n else size
  someLoop batchSize []

/-- `MemPool.addNew`, `Producer.AddTxn`: a `nil` transaction has no id. -/
def addTxn [Identified τ] (tx : Option τ) : Go (Backend τ) Unit := do
  insertBack tx
  match tx with
  | none => throw .nilDereference
  | .some tx => modify fun b => { b with bloom := b.bloom.add (Identified.id tx) }

/-- `MemPool.addOld`, `Producer.CollectTxn`. -/
def collectTxn (tx : Option τ) : Go (Backend τ) Unit := insertFront tx

/-- `Producer.GeneratePayload` with the batch size of the configuration. -/
def generatePayload (bSize : ℕ) : Go (Backend τ) (List (Option τ)) := Backend.some bSize

/-- A payload is the front of the pool. -/
theorem someLoop_eq {k : ℕ} {batch : List (Option τ)} {b : Backend τ} (h : k ≤ b.txns.length) :
    someLoop k batch b = .ok (batch ++ (b.txns.take k).map .some) { b with txns := b.txns.drop k } := by
  induction k generalizing batch b with
  | zero => simp [someLoop, pure, EStateM.pure]
  | succ k ih =>
    obtain ⟨txn, rest, htxns⟩ := List.exists_cons_of_length_pos (show 0 < b.txns.length by omega)
    have hfront : front b = .ok (.some txn) { b with txns := rest } := by
      unfold front
      rw [Prog.get_bind_apply, htxns]
      rfl
    rw [someLoop, Prog.bind_apply_ok hfront, ih (by simp [htxns] at h; exact h)]
    simp [htxns]

theorem some_eq (n : ℕ) (b : Backend τ) :
    Backend.some n b = .ok ((b.txns.take n).map .some) { b with txns := b.txns.drop n } := by
  unfold Backend.some
  rw [Prog.get_bind_apply]
  show someLoop (if n ≤ b.txns.length then n else b.txns.length) [] b = _
  split_ifs with h
  · rw [someLoop_eq h]
    rfl
  · rw [someLoop_eq le_rfl, List.take_of_length_le le_rfl, List.take_of_length_le (by omega),
      List.drop_of_length_le le_rfl, List.drop_of_length_le (by omega)]
    rfl

/-! ### Sequences of calls -/

/-- A call to the producer, with a transaction that is not `nil`. -/
inductive Call (τ : Type)
  | addTxn (txn : τ)
  | collectTxn (txn : τ)
  | generatePayload (bSize : ℕ)

/-- The same call with another transaction. -/
def Call.map {τ' : Type} (f : τ → τ') : Call τ → Call τ'
  | .addTxn txn => .addTxn (f txn)
  | .collectTxn txn => .collectTxn (f txn)
  | .generatePayload bSize => .generatePayload bSize

/-- What a call takes out of the pool. -/
def given (b : Backend τ) : Call τ → List τ
  | .generatePayload bSize => b.txns.take bSize
  | _ => []

/-- What a call of `AddTxn` puts into the pool: its transaction, if the pool holds at most `limit`. -/
def accepts (b : Backend τ) : Call τ → List τ
  | .addTxn txn => if b.txns.length ≤ b.limit then [txn] else []
  | _ => []

/-- The transactions that are given to `AddTxn`. -/
def added (cs : List (Call τ)) : List τ := cs.filterMap fun
  | .addTxn txn => .some txn
  | _ => none

/-- The transactions that are given to `CollectTxn`. -/
def collected (cs : List (Call τ)) : List τ := cs.filterMap fun
  | .collectTxn txn => .some txn
  | _ => none

/-- A call as an event of a queue, if it is one. -/
def event (b : Backend τ) : Call τ → List (Deque.Event τ)
  | .addTxn txn => if b.txns.length ≤ b.limit then [.pushBack txn] else []
  | .collectTxn txn => [.pushFront txn]
  | .generatePayload bSize => [.take bSize]

section Calls

variable [Identified τ]

/-- A call, and the payload if it is for one. -/
def perform : Call τ → Go (Backend τ) (List (Option τ))
  | .addTxn txn => do
    addTxn (.some txn)
    return []
  | .collectTxn txn => do
    collectTxn (.some txn)
    return []
  | .generatePayload bSize => generatePayload bSize

/-- A sequence of calls. -/
def performAll : List (Call τ) → Go (Backend τ) (List (List (Option τ)))
  | [] => return []
  | c :: cs => do
    let payload ← perform c
    let payloads ← performAll cs
    return payload :: payloads

/-- The pool after a call. -/
def after (b : Backend τ) : Call τ → Backend τ
  | .addTxn txn =>
    let b := if b.txns.length ≤ b.limit then
        { b with totalReceived := b.totalReceived + 1, txns := b.txns ++ [txn] }
      else b
    { b with bloom := b.bloom.add (Identified.id txn) }
  | .collectTxn txn => { b with txns := txn :: b.txns }
  | .generatePayload bSize => { b with txns := b.txns.drop bSize }

/-- What the calls take out of the pool. -/
def givens (b : Backend τ) : List (Call τ) → List (List τ)
  | [] => []
  | c :: cs => b.given c :: givens (b.after c) cs

/-- The transactions of the calls of `AddTxn` that came when the pool held at most `limit`. -/
def accepted (b : Backend τ) : List (Call τ) → List τ
  | [] => []
  | c :: cs => b.accepts c ++ accepted (b.after c) cs

/-- The calls as events of a queue. -/
def events (b : Backend τ) : List (Call τ) → List (Deque.Event τ)
  | [] => []
  | c :: cs => b.event c ++ events (b.after c) cs

variable (b : Backend τ) (c : Call τ) (cs ds : List (Call τ))

/-- No call stops. -/
theorem perform_eq : perform c b = .ok ((b.given c).map .some) (b.after c) := by
  cases c with
  | addTxn txn =>
    unfold perform addTxn insertBack after
    simp only [bind, EStateM.bind, get, getThe, MonadStateOf.get, EStateM.get]
    by_cases h : b.txns.length ≤ b.limit
    · rw [if_neg (not_lt.2 h), if_pos h]
      rfl
    · rw [if_pos (not_le.1 h), if_neg h]
      rfl
  | collectTxn txn => rfl
  | generatePayload bSize => exact some_eq bSize b

theorem performAll_eq : performAll cs b = .ok ((b.givens cs).map (·.map .some)) (cs.foldl after b) := by
  induction cs generalizing b with
  | nil => rfl
  | cons c cs ih =>
    rw [performAll, Prog.bind_apply_ok (perform_eq b c), Prog.bind_apply_ok (ih _)]
    rfl

/-! ### The pool is a queue -/

theorem events_append : b.events (cs ++ ds) = b.events cs ++ (cs.foldl after b).events ds := by
  induction cs generalizing b with
  | nil => rfl
  | cons c cs ih =>
    simp only [List.cons_append, events, ih, List.foldl_cons, List.append_assoc]

theorem givens_append : b.givens (cs ++ ds) = b.givens cs ++ (cs.foldl after b).givens ds := by
  induction cs generalizing b with
  | nil => rfl
  | cons c cs ih => simp only [List.cons_append, givens, ih, List.foldl_cons]

theorem length_givens : (b.givens cs).length = cs.length := by
  induction cs generalizing b with
  | nil => rfl
  | cons c cs ih => simp only [givens, List.length_cons, ih]

theorem step_event (out : List τ) :
    (b.event c).foldl Deque.State.step ⟨out, b.txns⟩ = ⟨out ++ b.given c, (b.after c).txns⟩ := by
  cases c with
  | addTxn txn =>
    unfold event after
    by_cases h : b.txns.length ≤ b.limit <;> simp [h, given, Deque.State.step]
  | collectTxn txn => simp [event, after, given, Deque.State.step]
  | generatePayload bSize => simp [event, after, given, Deque.State.step]

theorem foldl_events (out : List τ) :
    (b.events cs).foldl Deque.State.step ⟨out, b.txns⟩ =
      ⟨out ++ (b.givens cs).flatten, (cs.foldl after b).txns⟩ := by
  induction cs generalizing b out with
  | nil => simp [events, givens]
  | cons c cs ih =>
    rw [events, List.foldl_append, step_event, ih, givens, List.flatten_cons, List.append_assoc]
    rfl

theorem backs_events : Deque.backs (b.events cs) = b.accepted cs := by
  induction cs generalizing b with
  | nil => rfl
  | cons c cs ih =>
    rw [events, Deque.backs_append, ih, accepted]
    congr 1
    cases c with
    | addTxn txn =>
      unfold event accepts
      split_ifs <;> rfl
    | collectTxn txn => rfl
    | generatePayload bSize => rfl

theorem fronts_events : Deque.fronts (b.events cs) = collected cs := by
  induction cs generalizing b with
  | nil => rfl
  | cons c cs ih =>
    rw [events, Deque.fronts_append, ih]
    cases c with
    | addTxn txn =>
      unfold event
      split_ifs <;> rfl
    | collectTxn txn => rfl
    | generatePayload bSize => rfl

/-- Only what is accepted is counted. -/
theorem totalReceived_foldl :
    (cs.foldl after b).totalReceived = b.totalReceived + (b.accepted cs).length := by
  induction cs generalizing b with
  | nil => rfl
  | cons c cs ih =>
    rw [List.foldl_cons, ih, accepted, List.length_append, ← Nat.add_assoc]
    congr 1
    cases c with
    | addTxn txn =>
      unfold after accepts
      split_ifs <;> rfl
    | collectTxn txn => rfl
    | generatePayload bSize => rfl

/-- What a sequence of calls to a new producer has returned, and the pool it has left. -/
structure Run (limit : ℤ) (cs : List (Call τ)) where
  payloads : List (List τ)
  pool : Backend τ
  returns : performAll cs (new limit) = .ok (payloads.map (·.map .some)) pool

/-- All that was taken out of the pool, in its order. -/
def Run.out {limit : ℤ} {cs : List (Call τ)} (r : Run limit cs) : List τ := r.payloads.flatten

/-- Each sequence of calls returns. -/
def run (limit : ℤ) (cs : List (Call τ)) : Run limit cs :=
  ⟨(new limit).givens cs, cs.foldl after (new limit), performAll_eq _ _⟩

/-- **The pool is a queue with two entrances**, of which one is closed when it is full. -/
theorem runs_deque (limit : ℤ) :
    Deque.run ((new limit).events cs) = ⟨(run limit cs).out, (run limit cs).pool.txns⟩ :=
  foldl_events (new limit) cs []

/-! ### Labels -/

variable {τ' : Type} [Identified τ']

/-- Two pools of which one holds the images of what the other holds. -/
def Alike (f : τ → τ') (b : Backend τ) (b' : Backend τ') : Prop := b.txns.map f = b'.txns ∧ b.limit = b'.limit

variable {b cs} {f : τ → τ'} {b' : Backend τ'}

omit [Identified τ] [Identified τ'] in
theorem Alike.length (h : Alike f b b') : b'.txns.length = b.txns.length := by
  rw [← h.1, List.length_map]

theorem Alike.after (h : Alike f b b') (c : Call τ) : Alike f (b.after c) (b'.after (c.map f)) := by
  have hlen := h.length
  obtain ⟨htxns, hlimit⟩ := h
  cases c with
  | addTxn txn =>
    show Alike f (Backend.after b (.addTxn txn)) (Backend.after b' (.addTxn (f txn)))
    unfold Backend.after Alike
    rw [hlen, ← hlimit]
    by_cases hle : b.txns.length ≤ b.limit <;> simp [hle, htxns]
    exact hlimit
  | collectTxn txn => exact ⟨by simp [Backend.after, Call.map, htxns], hlimit⟩
  | generatePayload bSize => exact ⟨by simp [Backend.after, Call.map, ← htxns], hlimit⟩

/-- The pool does not look at what it holds. -/
theorem Alike.events (h : Alike f b b') (cs : List (Call τ)) :
    b'.events (cs.map (Call.map f)) = (b.events cs).map (Deque.Event.map f) := by
  induction cs generalizing b b' with
  | nil => rfl
  | cons c cs ih =>
    rw [List.map_cons, Backend.events, Backend.events, List.map_append, ih (h.after c)]
    congr 1
    cases c with
    | addTxn txn =>
      show (if _ then _ else _) = (if _ then _ else _ : List _).map _
      rw [h.length, ← h.2]
      split_ifs <;> rfl
    | collectTxn txn => rfl
    | generatePayload bSize => rfl

end Calls

section Labels

/-- The calls, each transaction with the number of its call as a label. -/
def labelled (cs : List (Call τ)) : List (Call (τ × ℕ)) := cs.zipIdx.map fun c => c.1.map (·, c.2)

/-- The label is that of a call of `AddTxn`. -/
def isAdded (cs : List (Call τ)) (x : τ × ℕ) : Bool :=
  match cs[x.2]? with
  | .some (.addTxn _) => true
  | _ => false

variable {cs : List (Call τ)} {x : τ × ℕ}

theorem map_labelled (cs : List (Call τ)) : (labelled cs).map (Call.map Prod.fst) = cs := by
  rw [labelled, List.map_map]
  have hfst : (Call.map Prod.fst ∘ fun c : Call τ × ℕ => c.1.map (·, c.2)) = Prod.fst := by
    funext c
    obtain ⟨c, k⟩ := c
    cases c <;> rfl
  rw [hfst, List.zipIdx_map_fst]

theorem labelled_append (before : List (Call τ)) (c : Call τ) (cs : List (Call τ)) :
    ∃ rest, labelled (before ++ c :: cs) = labelled before ++ c.map (·, before.length) :: rest := by
  refine ⟨(cs.zipIdx (before.length + 1)).map fun c => c.1.map (·, c.2), ?_⟩
  simp [labelled, List.zipIdx_append]

theorem mem_labelled {c' : Call (τ × ℕ)} (h : c' ∈ labelled cs) :
    ∃ (c : Call τ) (k : ℕ), cs[k]? = .some c ∧ c' = c.map (·, k) := by
  obtain ⟨⟨c, k⟩, hmem, rfl⟩ := List.mem_map.1 h
  exact ⟨c, k, List.mem_zipIdx_iff_getElem?.1 hmem, rfl⟩

theorem mem_added (h : x ∈ added (labelled cs)) : cs[x.2]? = .some (.addTxn x.1) := by
  obtain ⟨c', hc', hx⟩ := List.mem_filterMap.1 h
  obtain ⟨c, k, hc, rfl⟩ := mem_labelled hc'
  cases c <;> cases hx
  exact hc

theorem mem_collected (h : x ∈ collected (labelled cs)) : cs[x.2]? = .some (.collectTxn x.1) := by
  obtain ⟨c', hc', hx⟩ := List.mem_filterMap.1 h
  obtain ⟨c, k, hc, rfl⟩ := mem_labelled hc'
  cases c <;> cases hx
  exact hc

theorem nodup_zipIdx (cs : List (Call τ)) : cs.zipIdx.Nodup := by
  apply List.Nodup.of_map Prod.snd
  rw [List.zipIdx_map_snd]
  exact List.nodup_range'

/-- No label comes twice. -/
theorem nodup_labelled (cs : List (Call τ)) : (added (labelled cs) ++ collected (labelled cs)).Nodup := by
  refine List.nodup_append.2 ⟨?_, ?_, ?_⟩
  · rw [added, labelled, List.filterMap_map]
    refine (nodup_zipIdx cs).filterMap ?_
    rintro ⟨c, k⟩ ⟨c', k'⟩ x hx hx'
    cases c <;> cases hx
    cases c' <;> cases hx'
    rfl
  · rw [collected, labelled, List.filterMap_map]
    refine (nodup_zipIdx cs).filterMap ?_
    rintro ⟨c, k⟩ ⟨c', k'⟩ x hx hx'
    cases c <;> cases hx
    cases c' <;> cases hx'
    rfl
  · rintro x hx _ hx' rfl
    have := (mem_added hx).symm.trans (mem_collected hx')
    cases this

variable [Identified τ]

theorem accepted_sublist (b : Backend τ) (cs : List (Call τ)) : (b.accepted cs).Sublist (added cs) := by
  induction cs generalizing b with
  | nil => exact .slnil
  | cons c cs ih =>
    have hcons : added (c :: cs) = added [c] ++ added cs := List.filterMap_append (l := [c])
    rw [accepted, hcons]
    refine List.Sublist.append ?_ (ih _)
    cases c with
    | addTxn txn =>
      unfold accepts
      split_ifs
      · exact .refl _
      · exact List.nil_sublist _
    | collectTxn txn => exact .refl _
    | generatePayload bSize => exact .refl _

variable (limit : ℤ)

/-- The order of leaving, with labels. -/
theorem order_run (cs : List (Call τ)) :
    (Deque.run ((new limit).events cs)).order = (run limit cs).out ++ (run limit cs).pool.txns := by
  rw [runs_deque]
  rfl

theorem perm_run (cs : List (Call τ)) :
    ((new limit).accepted cs ++ collected cs).Perm ((run limit cs).out ++ (run limit cs).pool.txns) := by
  rw [← order_run, ← backs_events, ← fronts_events (new limit)]
  exact (Deque.perm_run _).symm

theorem nodup_run (cs : List (Call τ)) :
    ((run limit (labelled cs)).out ++ (run limit (labelled cs)).pool.txns).Nodup :=
  (perm_run limit _).nodup_iff.1 ((nodup_labelled cs).sublist ((accepted_sublist _ _).append_right _))

/-- Without their labels they are the transactions of the run. -/
theorem map_run (cs : List (Call τ)) : (run limit (labelled cs)).out.map Prod.fst = (run limit cs).out ∧
    (run limit (labelled cs)).pool.txns.map Prod.fst = (run limit cs).pool.txns := by
  have halike : Alike Prod.fst (new limit : Backend (τ × ℕ)) (new limit : Backend τ) := ⟨rfl, rfl⟩
  have hevents := halike.events (labelled cs)
  rw [map_labelled] at hevents
  have hrun := runs_deque cs limit
  rw [hevents, Deque.run_map, runs_deque] at hrun
  exact ⟨congrArg Deque.State.out hrun, congrArg Deque.State.pool hrun⟩

/-- What is accepted leaves in the order of acceptance. -/
theorem added_prefix (cs : List (Call τ)) :
    (run limit (labelled cs)).out.filter (isAdded cs) <+: (new limit).accepted (labelled cs) := by
  have hbacks : ∀ x ∈ Deque.backs ((new limit).events (labelled cs)), isAdded cs x = true := by
    intro x hx
    rw [backs_events] at hx
    rw [isAdded, mem_added ((accepted_sublist _ _).subset hx)]
  have hfronts : ∀ x ∈ Deque.fronts ((new limit).events (labelled cs)), isAdded cs x = false := by
    intro x hx
    rw [fronts_events] at hx
    rw [isAdded, mem_collected hx]
  have hfilter := Deque.filter_run hbacks hfronts
  rw [order_run, List.filter_append, backs_events] at hfilter
  exact ⟨_, hfilter⟩

/-- What is collected leaves before all that was there. -/
theorem collected_first {before after : List (Call τ)} {txn : τ} {y : τ × ℕ}
    (hy : y ∈ (run limit (labelled before)).pool.txns)
    (hout : y ∈ (run limit (labelled (before ++ .collectTxn txn :: after))).out) :
    [(txn, before.length), y].Sublist (run limit (labelled (before ++ .collectTxn txn :: after))).out := by
  obtain ⟨rest, hrest⟩ := labelled_append before (.collectTxn txn) after
  have hnodup := nodup_run limit (before ++ .collectTxn txn :: after)
  have hevents : (new limit).events (labelled (before ++ .collectTxn txn :: after)) =
      (new limit).events (labelled before) ++ .pushFront (txn, before.length) ::
        (((labelled before).foldl Backend.after (new limit)).after
          (.collectTxn (txn, before.length))).events rest := by
    rw [hrest, events_append]
    rfl
  have hrun := runs_deque (labelled (before ++ .collectTxn txn :: after)) limit
  rw [← order_run, hevents] at hnodup
  rw [hevents] at hrun
  have hpair := Deque.pair_sublist_run hnodup (by rw [runs_deque]; exact hy) (by rw [hrun]; exact hout)
  rw [hrun] at hpair
  exact hpair

/-- **The pool loses nothing.**  Whatever calls have come: they return, and no entry of a payload is `nil`; those
that were accepted and those that were collected are those in the payloads and in the pool; the pool counts the
accepted ones; a payload has as many entries as it can.  With the number of its call as a label, each transaction
leaves at most once; the accepted ones leave in the order of their acceptance, and a collected one before all that
were in the pool when it was collected. -/
theorem lossless_queue (limit : ℤ) (cs : List (Call Transaction)) :
    performAll cs (new limit) = .ok ((run limit cs).payloads.map (·.map .some)) (run limit cs).pool ∧
    ((new limit).accepted cs ++ collected cs).Perm ((run limit cs).out ++ (run limit cs).pool.txns) ∧
    (run limit cs).pool.totalReceived = ((new limit).accepted cs).length ∧
    (∀ before bSize after, cs = before ++ .generatePayload bSize :: after →
      ∃ payload, (run limit cs).payloads[before.length]? = .some payload ∧
        payload.length = min bSize (run limit before).pool.txns.length) ∧
    (run limit (labelled cs)).out.map Prod.fst = (run limit cs).out ∧
    (run limit (labelled cs)).pool.txns.map Prod.fst = (run limit cs).pool.txns ∧
    ((run limit (labelled cs)).out ++ (run limit (labelled cs)).pool.txns).Nodup ∧
    (run limit (labelled cs)).out.filter (isAdded cs) <+: (new limit).accepted (labelled cs) ∧
    ∀ before txn after, cs = before ++ .collectTxn txn :: after →
      ∀ y ∈ (run limit (labelled before)).pool.txns, y ∈ (run limit (labelled cs)).out →
        [(txn, before.length), y].Sublist (run limit (labelled cs)).out := by
  refine ⟨(run limit cs).returns, perm_run limit cs, ?_, ?_, (map_run limit cs).1, (map_run limit cs).2,
    nodup_run limit cs, added_prefix limit cs, ?_⟩
  · exact (totalReceived_foldl (new limit) cs).trans (Nat.zero_add _)
  · rintro before bSize after rfl
    refine ⟨(run limit before).pool.txns.take bSize, ?_, List.length_take⟩
    show ((new limit).givens (before ++ .generatePayload bSize :: after))[before.length]? = _
    rw [givens_append, List.getElem?_append_right (length_givens _ _).le, length_givens, Nat.sub_self]
    rfl
  · rintro before txn after rfl y hy hout
    exact collected_first limit hy hout

end Labels

/-! ### Forked blocks -/

/-- The loop of `processForkedBlock`. -/
def collectAll : List Transaction → Go (Backend Transaction) Unit
  | [] => return
  | txn :: payload => do
    collectTxn (.some txn)
    collectAll payload

/-- `Replica.processForkedBlock` of the replica `self`. -/
def processForkedBlock (self : NodeID) (block : Block) : Go (Backend Transaction) Unit :=
  if block.proposer = self then collectAll block.payload else return

/-- The loop turns the payload around. -/
theorem collectAll_eq (payload : List Transaction) (b : Backend Transaction) :
    collectAll payload b = .ok () { b with txns := payload.reverse ++ b.txns } := by
  induction payload generalizing b with
  | nil => rfl
  | cons txn payload ih =>
    have hone : collectTxn (.some txn) b = .ok () { b with txns := txn :: b.txns } := rfl
    rw [collectAll, Prog.bind_apply_ok hone, ih, List.reverse_cons, List.append_assoc]
    rfl

/-- **A forked block puts its payload back as it was** exactly if this reads the same in both directions. -/
theorem forked_undoes_iff (cf : Config) (self : NodeID) (bSize : ℕ) (b taken : Backend Transaction)
    (payload : List Transaction) (view : ℤ) (qc : QC) (prevID : ℕ) (block : Block)
    (htake : generatePayload bSize b = .ok (payload.map .some) taken)
    (hblock : makeBlock cf view qc prevID payload self = .ok block) :
    ∃ returned, processForkedBlock self block taken = .ok () returned ∧
      (returned.txns = b.txns ↔ (b.txns.take bSize).reverse = b.txns.take bSize) := by
  have hsome := some_eq bSize b
  rw [show Backend.some bSize b = _ from htake] at hsome
  injection hsome with hpayload htaken
  rw [List.map_inj_right fun _ _ => Option.some.inj] at hpayload
  refine ⟨{ taken with txns := payload.reverse ++ taken.txns }, ?_, ?_⟩
  · unfold processForkedBlock
    rw [if_pos (makeBlock_eq_ok hblock).2.2.1, payload_makeBlock hblock, collectAll_eq]
  · show payload.reverse ++ taken.txns = b.txns ↔ _
    rw [htaken, hpayload]
    constructor
    · intro h
      exact List.append_cancel_right (h.trans (List.take_append_drop bSize b.txns).symm)
    · intro h
      rw [h, List.take_append_drop]

/-- A pool of transactions of clients. -/
def holding (txns : List Transaction) : Backend Transaction := ⟨txns, 10, txns.length, ⟨∅⟩⟩

open FourNodes (write config)

/-- One transaction in the payload, and another one that stays in the pool. -/
theorem forked_undoes_iff_single :
    ∃ block returned, makeBlock (config fun _ => "1") 1 .initial 0 [write "/a" 7] "1" = .ok block ∧
      processForkedBlock "1" block (holding [write "/b" 8]) = .ok () returned ∧
      returned.txns = [write "/a" 7, write "/b" 8] := by
  obtain ⟨returned, hreturned, hiff⟩ := forked_undoes_iff (config fun _ => "1") "1" 1
    { holding [write "/b" 8] with txns := [write "/a" 7, write "/b" 8] } (holding [write "/b" 8])
    [write "/a" 7] 1 .initial 0 _ rfl rfl
  exact ⟨_, returned, rfl, hreturned, hiff.2 rfl⟩

/-- **Two transactions come back in the other order.** -/
theorem forked_turns_around :
    ∃ block taken returned,
      generatePayload 2 (holding [write "/a" 7, write "/b" 8]) = .ok [some (write "/a" 7), some (write "/b" 8)] taken ∧
      makeBlock (config fun _ => "1") 1 .initial 0 [write "/a" 7, write "/b" 8] "1" = .ok block ∧
      processForkedBlock "1" block taken = .ok () returned ∧
      returned.txns = [write "/b" 8, write "/a" 7] :=
  ⟨_, _, _, rfl, rfl, rfl, rfl⟩

end Backend

end Bamboo
