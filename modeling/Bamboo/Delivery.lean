import Bamboo.Lib.Lts
import Bamboo.Socket

/-!
# From `Send` to the handlers

All nodes of a deployment with what stands between the call of `Send` or `Broadcast` at one node and the handler of
the message at another one: the sockets, the connections over TCP, and `node.recv` and `node.handle` of
`node/node.go`.

* What the nodes do is left open: any node may send anything at any time, and may change a message it has sent, for
  `Send` passes a pointer on and the encoder reads it later.
* A message that cannot be encoded or decoded is lost, and so is what arrives while the node is crashed, or is
  Byzantine with the strategy of silence.
* A node has no connection to itself: what it sends to itself stays in the channel of its own transport.

Clients' transactions and their replies take another way in `node.recv` and are not part of this.

* `Station`, `Delivery.Act`, `Delivery.step`: a node, and what can happen in a deployment;
* `Delivery.owed`, `Delivery.outgoing`, `Delivery.incoming`: what a message is to a destination, and where it is;
* `Delivery.delivery`: **no message is handled twice, none changes on its way by itself, and without faults none is
  lost**.
-/

namespace Bamboo

/-- A message that has arrived: the node it came from, its number there, and what was encoded. -/
structure Arrival (μ : Type) where
  src : NodeID
  ref : ℕ
  body : μ
  deriving DecidableEq

/-- A node of the deployment. -/
structure Station (μ : Type) where
  socket : Socket
  /-- the messages it has sent, with their destinations, as they are now -/
  posted : List (Option NodeID × μ)
  /-- the `recv` channel of its transport -/
  recv : List (Arrival μ)
  messageChan : List (Arrival μ)
  /-- what `node.handle` has taken -/
  handled : List (Arrival μ)

namespace Delivery

/-- What can happen in a deployment. -/
inductive Act (μ : Type)
  /-- a call of `Send`, or of `Broadcast` -/
  | post (i : NodeID) (dest : Option NodeID) (m : μ)
  /-- a message that was sent is changed -/
  | write (i : NodeID) (k : ℕ) (m : μ)
  /-- a step of `Send` -/
  | proceed (i : NodeID) (n : ℕ) (r : ℚ)
  /-- a message has been slowed down for long enough -/
  | wake (i : NodeID) (n : ℕ)
  /-- a message is encoded, and decoded at the other end -/
  | transmit (i : NodeID) (n : ℕ)
  /-- a message cannot be encoded or decoded -/
  | lose (i : NodeID) (n : ℕ)
  /-- `node.recv` -/
  | receive (i : NodeID)
  /-- `node.handle` -/
  | handle (i : NodeID)
  /-- `Drop`, `Slow`, `Flaky` and `Crash` of the socket, and the end of a fault -/
  | drop (i id : NodeID)
  | slow (i id : NodeID) (delay : ℤ)
  | flaky (i id : NodeID) (p : ℚ)
  | crash (i : NodeID) (t : ℤ)
  | expire (i : NodeID) (n : ℕ)

variable {μ : Type}

/-- The node an action happens at. -/
def target : Act μ → NodeID
  | .post i _ _ | .write i _ _ | .proceed i _ _ | .wake i _ | .transmit i _ | .lose i _ | .receive i | .handle i
  | .drop i _ | .slow i _ _ | .flaky i _ _ | .crash i _ | .expire i _ => i

/-- What an action does to its node; `silent` is `n.isByz` with the strategy of silence. -/
def actAt (silent : Bool) (st : Station μ) : Act μ → Option (Station μ)
  | .post _ dest m =>
    some { st with posted := st.posted ++ [(dest, m)], socket := st.socket.post dest st.posted.length }
  | .write _ k m => st.posted[k]?.map fun p => { st with posted := st.posted.set k (p.1, m) }
  | .proceed _ n r => (st.socket.proceed r n).map fun s => { st with socket := s }
  | .wake _ n => (st.socket.wake n).map fun s => { st with socket := s }
  | .transmit _ _ => none
  | .lose _ n =>
    st.socket.queue[n]?.map fun _ => { st with socket := { st.socket with queue := st.socket.queue.eraseIdx n } }
  | .receive _ => match st.recv with
    | [] => none
    | x :: rest =>
      if st.socket.crash = true ∨ silent = true then some { st with recv := rest }
      else some { st with recv := rest, messageChan := st.messageChan ++ [x] }
  | .handle _ => match st.messageChan with
    | [] => none
    | x :: rest => some { st with messageChan := rest, handled := st.handled ++ [x] }
  | .drop _ id => some { st with socket := st.socket.dropFor id }
  | .slow _ id delay => some { st with socket := st.socket.slowFor id delay }
  | .flaky _ id p => some { st with socket := st.socket.flakyFor id p }
  | .crash _ t => some { st with socket := st.socket.crashFor t }
  | .expire _ n => (st.socket.expire n).map fun s => { st with socket := s }

/-- The `n`-th message in the queues of a node moves to the other end of its connection, as it is now. -/
def transmit (net : NodeID → Station μ) (i : NodeID) (n : ℕ) : Option (NodeID → Station μ) :=
  match (net i).socket.queue[n]? with
  | none => none
  | some (dst, k) => match (net i).posted[k]? with
    | none => none
    | some p =>
      if dst = i then none
      else
        let sent := { net i with socket := { (net i).socket with queue := (net i).socket.queue.eraseIdx n } }
        some (Function.update (Function.update net i sent) dst
          { net dst with recv := (net dst).recv ++ [⟨i, k, p.2⟩] })

/-- The deployment's next state. -/
def step (silent : NodeID → Bool) (net : NodeID → Station μ) : Act μ → Option (NodeID → Station μ)
  | .transmit i n => transmit net i n
  | a => (actAt (silent (target a)) (net (target a)) a).map (Function.update net (target a))

/-- The deployment as a transition system. -/
def lts (μ : Type) (silent : NodeID → Bool) : Lts (NodeID → Station μ) (Act μ) := .ofStep (step silent)

instance decidableCan (silent : NodeID → Bool) (net : NodeID → Station μ) : DecidablePred ((lts μ silent).can net) :=
  Lts.decidableOfStep _ net

/-- A deployment that has just been set up. -/
def start (μ : Type) (members : List NodeID) : NodeID → Station μ := fun i => ⟨.new i members, [], [], [], []⟩

/-- `node.recv` takes a message from the transport; it drops it, or passes it on. -/
theorem receive_cases {silent : Bool} {st st' : Station μ} {i : NodeID}
    (h : actAt silent st (.receive i) = some st') :
    ∃ x rest, st.recv = x :: rest ∧
      ((st.socket.crash = true ∨ silent = true) ∧ st' = { st with recv := rest } ∨
        st' = { st with recv := rest, messageChan := st.messageChan ++ [x] }) := by
  simp only [actAt] at h
  split at h
  · cases h
  · next x rest hr =>
    refine ⟨x, rest, hr, ?_⟩
    split_ifs at h with hd
    · exact Or.inl ⟨hd, (Option.some.inj h).symm⟩
    · exact Or.inr (Option.some.inj h).symm

/-- `node.handle` takes the next message. -/
theorem handle_cases {silent : Bool} {st st' : Station μ} {i : NodeID} (h : actAt silent st (.handle i) = some st') :
    ∃ x rest, st.messageChan = x :: rest ∧ st' = { st with messageChan := rest, handled := st.handled ++ [x] } := by
  simp only [actAt] at h
  split at h
  · cases h
  · next x rest hr => exact ⟨x, rest, hr, (Option.some.inj h).symm⟩

/-! ### Where a message is -/

/-- What a message is to a destination: one message or none. -/
def owed (st : Station μ) (dst : NodeID) (k : ℕ) : ℕ :=
  match st.posted[k]? with
  | some p => if dst ∈ st.socket.destinations p.1 then 1 else 0
  | none => 0

/-- How often it is still with its sender. -/
def outgoing (st : Station μ) (dst : NodeID) (k : ℕ) : ℕ := st.socket.tokens.count (dst, k)

/-- The message of this number from this node. -/
def isFrom (src : NodeID) (k : ℕ) (a : Arrival μ) : Bool := decide (a.src = src ∧ a.ref = k)

/-- How often it waits at its destination. -/
def waiting (st : Station μ) (src : NodeID) (k : ℕ) : ℕ := (st.recv ++ st.messageChan).countP (isFrom src k)

/-- How often it has been handled there. -/
def handled (st : Station μ) (src : NodeID) (k : ℕ) : ℕ := st.handled.countP (isFrom src k)

/-- How often it has arrived there and was not discarded. -/
def incoming (st : Station μ) (src : NodeID) (k : ℕ) : ℕ := waiting st src k + handled st src k

/-- A fault: `Drop`, `Flaky`, `Crash`, or a message that cannot be encoded or decoded.  To slow messages down is
none. -/
def IsFault : Act μ → Prop
  | .drop _ _ | .flaky _ _ _ | .crash _ _ | .lose _ _ => True
  | _ => False

/-- What an action of a node does to the messages at this node; without faults it does so exactly. -/
structure Keeps (exact : Prop) (st st' : Station μ) : Prop where
  id : st'.socket.id = st.socket.id
  addresses : st'.socket.addresses = st.socket.addresses
  out : ∀ dst k, outgoing st' dst k + owed st dst k ≤ outgoing st dst k + owed st' dst k
  inc : ∀ src k, incoming st' src k ≤ incoming st src k
  outEq : exact → ∀ dst k, dst ∈ st.socket.addresses →
    outgoing st' dst k + owed st dst k = outgoing st dst k + owed st' dst k
  incEq : exact → ∀ src k, incoming st' src k = incoming st src k
  clean : exact → st'.socket.Clean

/-! ### One node -/

section Nodes

variable {st st' : Station μ} {silent : Bool} {exact : Prop}

theorem destinations_congr {s t : Socket} (hid : t.id = s.id) (had : t.addresses = s.addresses)
    (dest : Option NodeID) : t.destinations dest = s.destinations dest := by
  unfold Socket.destinations
  rw [hid, had]

/-- An action that only concerns the socket. -/
theorem keeps_socket {s : Socket} (hid : s.id = st.socket.id) (had : s.addresses = st.socket.addresses)
    (hle : ∀ x, s.tokens.count x ≤ st.socket.tokens.count x)
    (heq : exact → ∀ x, x.1 ∈ st.socket.addresses → s.tokens.count x = st.socket.tokens.count x)
    (hc : exact → s.Clean) : Keeps exact st { st with socket := s } := by
  have howed : ∀ dst k, owed { st with socket := s } dst k = owed st dst k := by
    intro dst k
    unfold owed
    simp only [destinations_congr hid had]
  refine ⟨hid, had, fun dst k => ?_, fun _ _ => le_refl _, fun he dst k hd => ?_, fun _ _ _ => rfl, hc⟩
  · rw [howed]
    exact Nat.add_le_add_right (hle (dst, k)) _
  · rw [howed]
    exact congrArg (· + _) (heq he (dst, k) hd)

/-- An action that only concerns the messages that came in. -/
theorem keeps_incoming (hs : st'.socket = st.socket) (hp : st'.posted = st.posted)
    (hinc : ∀ src k, incoming st' src k ≤ incoming st src k)
    (heq : exact → ∀ src k, incoming st' src k = incoming st src k) (hc : exact → st.socket.Clean) :
    Keeps exact st st' := by
  have hout : ∀ dst k, outgoing st' dst k + owed st dst k = outgoing st dst k + owed st' dst k := by
    intro dst k
    unfold outgoing owed
    rw [hs, hp]
  exact ⟨by rw [hs], by rw [hs], fun dst k => (hout dst k).le, hinc, fun _ dst k _ => hout dst k, heq,
    fun he => hs ▸ hc he⟩

/-- A call of `Send` or `Broadcast` owes a message to each of its destinations. -/
theorem owed_post (st : Station μ) (dest : Option NodeID) (m : μ) (dst : NodeID) (k : ℕ) :
    owed { st with posted := st.posted ++ [(dest, m)], socket := st.socket.post dest st.posted.length } dst k =
      owed st dst k + if k = st.posted.length ∧ dst ∈ st.socket.destinations dest then 1 else 0 := by
  have hdest : (st.socket.post dest st.posted.length).destinations = st.socket.destinations := rfl
  unfold owed
  rw [hdest]
  rcases Nat.lt_trichotomy k st.posted.length with hlt | rfl | hgt
  · rw [List.getElem?_append_left hlt, if_neg fun h => absurd h.1 (by omega), Nat.add_zero]
  · rw [List.getElem?_append_right le_rfl, Nat.sub_self, List.getElem?_eq_none le_rfl]
    simp
  · rw [List.getElem?_append_right hgt.le, List.getElem?_eq_none (l := st.posted) hgt.le,
      List.getElem?_eq_none (by simp; omega), if_neg fun h => absurd h.1 (by omega)]

theorem keeps_post (hnd : st.socket.addresses.Nodup) (dest : Option NodeID) (m : μ)
    (hc : exact → st.socket.Clean) :
    Keeps exact st
      { st with posted := st.posted ++ [(dest, m)], socket := st.socket.post dest st.posted.length } := by
  have hout : ∀ dst k, outgoing
      { st with posted := st.posted ++ [(dest, m)], socket := st.socket.post dest st.posted.length } dst k +
        owed st dst k = outgoing st dst k + owed
      { st with posted := st.posted ++ [(dest, m)], socket := st.socket.post dest st.posted.length } dst k := by
    intro dst k
    rw [owed_post]
    show (st.socket.post dest st.posted.length).tokens.count (dst, k) + _ = _
    rw [Socket.count_post _ hnd]
    unfold outgoing
    dsimp only
    omega
  exact ⟨rfl, rfl, fun dst k => (hout dst k).le, fun _ _ => le_refl _, fun _ dst k _ => hout dst k,
    fun _ _ _ => rfl, fun he => ⟨(hc he).crash, (hc he).drop, (hc he).flaky⟩⟩

/-- A message that is changed is still for the same destinations. -/
theorem keeps_write {k : ℕ} {p : Option NodeID × μ} (hp : st.posted[k]? = some p) (m : μ)
    (hc : exact → st.socket.Clean) : Keeps exact st { st with posted := st.posted.set k (p.1, m) } := by
  have howed : ∀ dst j, owed { st with posted := st.posted.set k (p.1, m) } dst j = owed st dst j := by
    intro dst j
    unfold owed
    dsimp only
    by_cases hj : j = k
    · subst hj
      have hlt := (List.getElem?_eq_some_iff.1 hp).1
      rw [List.getElem?_set_self hlt, hp]
    · rw [List.getElem?_set_ne (Ne.symm hj)]
  exact ⟨rfl, rfl, fun dst j => by rw [howed]; exact le_refl _, fun _ _ => le_refl _,
    fun _ dst j _ => by rw [howed]; rfl, fun _ _ _ => rfl, hc⟩

/-- **Step lemma** for the actions of one node. -/
theorem keeps_actAt (hnd : st.socket.addresses.Nodup) {a : Act μ} (h : actAt silent st a = some st') :
    Keeps (st.socket.Clean ∧ silent = false ∧ ¬ IsFault a) st st' := by
  cases a with
  | post i dest m =>
    cases h
    exact keeps_post hnd dest m And.left
  | write i k m =>
    obtain ⟨p, hp, rfl⟩ := Option.map_eq_some_iff.1 h
    exact keeps_write hp m And.left
  | proceed i n r =>
    obtain ⟨s, hs, rfl⟩ := Option.map_eq_some_iff.1 h
    obtain ⟨hal, -⟩ := Socket.tokens_proceed hs
    exact keeps_socket hal.id hal.addresses (fun x => (Socket.count_proceed hs x).1)
      (fun he x hx => (Socket.count_proceed hs x).2 he.1 hx) fun he => hal.clean he.1
  | wake i n =>
    obtain ⟨s, hs, rfl⟩ := Option.map_eq_some_iff.1 h
    obtain ⟨hal, hperm⟩ := Socket.tokens_wake hs
    exact keeps_socket hal.id hal.addresses (fun x => (hperm.count_eq x).le) (fun _ x _ => hperm.count_eq x)
      fun he => hal.clean he.1
  | transmit i n => cases h
  | lose i n =>
    obtain ⟨x, hx, rfl⟩ := Option.map_eq_some_iff.1 h
    refine keeps_socket rfl rfl (fun y => ?_) (fun he => absurd trivial he.2.2) fun he => absurd trivial he.2.2
    simp only [Socket.tokens, List.count_append]
    have := (List.eraseIdx_sublist st.socket.queue n).count_le y
    omega
  | receive i =>
    obtain ⟨x, rest, hr, ⟨hd, rfl⟩ | rfl⟩ := receive_cases h
    · refine keeps_incoming rfl rfl (fun src k => ?_) (fun he => ?_) And.left
      · unfold incoming waiting
        rw [hr, List.cons_append, List.countP_cons]
        exact Nat.add_le_add_right (Nat.le_add_right _ _) _
      · exact absurd hd (by simp [he.1.crash, he.2.1])
    · have heq : ∀ src k, incoming { st with recv := rest, messageChan := st.messageChan ++ [x] } src k =
          incoming st src k := by
        intro src k
        unfold incoming waiting
        rw [hr]
        simp only [List.countP_append, List.countP_cons, List.countP_nil, handled]
        omega
      exact keeps_incoming rfl rfl (fun src k => (heq src k).le) (fun _ => heq) And.left
  | handle i =>
    obtain ⟨x, rest, hr, rfl⟩ := handle_cases h
    have heq : ∀ src k, incoming { st with messageChan := rest, handled := st.handled ++ [x] } src k =
        incoming st src k := by
      intro src k
      unfold incoming waiting handled
      rw [hr]
      simp only [List.countP_append, List.countP_cons, List.countP_nil]
      omega
    exact keeps_incoming rfl rfl (fun src k => (heq src k).le) (fun _ => heq) And.left
  | drop i id | flaky i id p | crash i t =>
    cases h
    exact keeps_socket rfl rfl (fun _ => le_refl _) (fun _ _ _ => rfl) fun he => absurd trivial he.2.2
  | slow i id delay =>
    cases h
    exact keeps_socket rfl rfl (fun _ => le_refl _) (fun _ _ _ => rfl)
      fun he => ⟨he.1.crash, he.1.drop, he.1.flaky⟩
  | expire i n =>
    obtain ⟨s, hs, rfl⟩ := Option.map_eq_some_iff.1 h
    obtain ⟨hid, had, htok, hclean⟩ := Socket.expire_cases hs
    exact keeps_socket hid had (fun x => by rw [htok]) (fun _ x _ => by rw [htok]) fun he => hclean he.1

end Nodes

/-! ### All nodes -/

section Network

variable {silent : NodeID → Bool} {members : List NodeID} {net net' : NodeID → Station μ} {a : Act μ}
  {src dst : NodeID} {k : ℕ}

theorem step_cases (h : step silent net a = some net') :
    (∃ i n, a = .transmit i n ∧ transmit net i n = some net') ∨
      ∃ st, actAt (silent (target a)) (net (target a)) a = some st ∧ net' = Function.update net (target a) st := by
  cases a with
  | transmit i n => exact Or.inl ⟨i, n, rfl, h⟩
  | _ =>
    simp only [step, Option.map_eq_some_iff] at h
    obtain ⟨st, hst, rfl⟩ := h
    exact Or.inr ⟨st, hst, rfl⟩

/-- What a transmission does. -/
structure Transmits (net net' : NodeID → Station μ) (i : NodeID) (x : NodeID × ℕ) (m : μ) : Prop where
  ne : x.1 ≠ i
  current : ∃ dest, (net i).posted[x.2]? = some (dest, m)
  sender : ∃ n, (net i).socket.queue[n]? = some x ∧
    net' i = { net i with socket := { (net i).socket with queue := (net i).socket.queue.eraseIdx n } }
  receiver : net' x.1 = { net x.1 with recv := (net x.1).recv ++ [⟨i, x.2, m⟩] }
  others : ∀ j, j ≠ i → j ≠ x.1 → net' j = net j

theorem transmits_of_transmit {i : NodeID} {n : ℕ} (h : transmit net i n = some net') :
    ∃ x m, Transmits net net' i x m := by
  unfold transmit at h
  split at h
  · cases h
  · next d j hq =>
    split at h
    · cases h
    · next p hp =>
      split_ifs at h with hne
      cases h
      refine ⟨(d, j), p.2, hne, ⟨p.1, hp⟩, ⟨n, hq, ?_⟩, ?_, fun l hi hd => ?_⟩
      · rw [Function.update_of_ne (Ne.symm hne), Function.update_self]
      · rw [Function.update_self]
      · rw [Function.update_of_ne hd, Function.update_of_ne hi]

namespace Transmits

variable {i : NodeID} {x : NodeID × ℕ} {m : μ} (h : Transmits net net' i x m)
include h

theorem alike (j : NodeID) : (net' j).socket.id = (net j).socket.id ∧
    (net' j).socket.addresses = (net j).socket.addresses ∧ (net' j).posted = (net j).posted ∧
    ((net j).socket.Clean → (net' j).socket.Clean) := by
  by_cases hi : j = i
  · subst hi
    obtain ⟨n, -, hs⟩ := h.sender
    rw [hs]
    exact ⟨rfl, rfl, rfl, fun hc => ⟨hc.crash, hc.drop, hc.flaky⟩⟩
  · by_cases hd : j = x.1
    · subst hd
      rw [h.receiver]
      exact ⟨rfl, rfl, rfl, id⟩
    · rw [h.others j hi hd]
      exact ⟨rfl, rfl, rfl, id⟩

theorem owed_eq (src dst : NodeID) (k : ℕ) : owed (net' src) dst k = owed (net src) dst k := by
  obtain ⟨hid, had, hp, -⟩ := h.alike src
  unfold owed
  simp only [hp, destinations_congr hid had]

/-- The sender has one message less. -/
theorem outgoing_eq (src dst : NodeID) (k : ℕ) :
    outgoing (net' src) dst k + (if src = i ∧ (dst, k) = x then 1 else 0) = outgoing (net src) dst k := by
  by_cases hi : src = i
  · subst hi
    obtain ⟨n, hq, hs⟩ := h.sender
    have hperm := Socket.perm_of_getElem? hq
    have hcount := hperm.count_eq (dst, k)
    have hx : (x == (dst, k)) = true ↔ (dst, k) = x := beq_iff_eq.trans eq_comm
    rw [List.count_cons, if_congr hx rfl rfl] at hcount
    rw [hs]
    simp only [outgoing, Socket.tokens, List.count_append, true_and]
    omega
  · rw [if_neg fun hc => hi hc.1, Nat.add_zero]
    by_cases hd : src = x.1
    · subst hd
      rw [h.receiver]
      rfl
    · rw [h.others src hi hd]

/-- The receiver has one message more. -/
theorem incoming_eq (src dst : NodeID) (k : ℕ) :
    incoming (net' dst) src k = incoming (net dst) src k + if src = i ∧ (dst, k) = x then 1 else 0 := by
  by_cases hd : dst = x.1
  · have hiff : (src = i ∧ (dst, k) = x) ↔ isFrom src k (⟨i, x.2, m⟩ : Arrival μ) = true := by
      simp only [isFrom, decide_eq_true_eq, Prod.ext_iff, hd, true_and]
      exact and_congr eq_comm eq_comm
    subst hd
    rw [h.receiver]
    unfold incoming waiting handled
    simp only [List.countP_append, List.countP_cons, List.countP_nil, hiff]
    omega
  · rw [if_neg fun hc => hd (congrArg Prod.fst hc.2), Nat.add_zero]
    by_cases hi : dst = i
    · subst hi
      obtain ⟨n, -, hs⟩ := h.sender
      rw [hs]
      rfl
    · rw [h.others dst hi hd]

end Transmits

/-- How often a message is somewhere between its sender and the end of its way. -/
def total (net : NodeID → Station μ) (src dst : NodeID) (k : ℕ) : ℕ :=
  outgoing (net src) dst k + incoming (net dst) src k

/-- The nodes are who they are. -/
def Sound (members : List NodeID) (net : NodeID → Station μ) : Prop :=
  ∀ i, (net i).socket.id = i ∧ (net i).socket.addresses = members

/-- No fault has been injected anywhere. -/
def AllClean (net : NodeID → Station μ) : Prop := ∀ i, (net i).socket.Clean

theorem Sound.step (hs : Sound members net) (hnd : members.Nodup) (h : step silent net a = some net') :
    Sound members net' := by
  intro i
  rcases step_cases h with ⟨j, n, rfl, ht⟩ | ⟨st, hst, rfl⟩
  · obtain ⟨x, m, htr⟩ := transmits_of_transmit ht
    obtain ⟨hid, had, -⟩ := htr.alike i
    rw [hid, had]
    exact hs i
  · by_cases hi : i = target a
    · subst hi
      have hk := keeps_actAt ((hs _).2 ▸ hnd) hst
      rw [Function.update_self, hk.id, hk.addresses]
      exact hs _
    · rw [Function.update_of_ne hi]
      exact hs i

theorem AllClean.step (hc : AllClean net) (hs : Sound members net) (hnd : members.Nodup) (ha : ¬ IsFault a)
    (hsil : ∀ i, silent i = false) (h : step silent net a = some net') : AllClean net' := by
  intro i
  rcases step_cases h with ⟨j, n, rfl, ht⟩ | ⟨st, hst, rfl⟩
  · obtain ⟨x, m, htr⟩ := transmits_of_transmit ht
    exact (htr.alike i).2.2.2 (hc i)
  · by_cases hi : i = target a
    · subst hi
      rw [Function.update_self]
      exact (keeps_actAt ((hs _).2 ▸ hnd) hst).clean ⟨hc _, hsil _, ha⟩
    · rw [Function.update_of_ne hi]
      exact hc i

/-- **Step lemma**: the copies of a message never become more than the destination is owed, and without faults not
fewer. -/
theorem total_step (hs : Sound members net) (hnd : members.Nodup) (hne : src ≠ dst)
    (h : step silent net a = some net') :
    total net' src dst k + owed (net src) dst k ≤ total net src dst k + owed (net' src) dst k ∧
    (AllClean net → (∀ i, silent i = false) → ¬ IsFault a → dst ∈ members →
      total net' src dst k + owed (net src) dst k = total net src dst k + owed (net' src) dst k) := by
  unfold total
  rcases step_cases h with ⟨j, n, rfl, ht⟩ | ⟨st, hst, rfl⟩
  · obtain ⟨x, m, htr⟩ := transmits_of_transmit ht
    have hout := htr.outgoing_eq src dst k
    have hin := htr.incoming_eq src dst k
    have how := htr.owed_eq src dst k
    exact ⟨by omega, fun _ _ _ _ => by omega⟩
  · have hk := keeps_actAt ((hs _).2 ▸ hnd) hst
    by_cases hi : src = target a
    · subst hi
      rw [Function.update_self, Function.update_of_ne (Ne.symm hne)]
      have hout := hk.out dst k
      refine ⟨by omega, fun hc hsil hf hd => ?_⟩
      have := hk.outEq ⟨hc _, hsil _, hf⟩ dst k ((hs _).2 ▸ hd)
      omega
    · rw [Function.update_of_ne hi]
      by_cases hd : dst = target a
      · subst hd
        rw [Function.update_self]
        have hin := hk.inc src k
        refine ⟨by omega, fun hc hsil hf _ => ?_⟩
        have := hk.incEq ⟨hc _, hsil _, hf⟩ src k
        omega
      · rw [Function.update_of_ne hd]
        exact ⟨le_refl _, fun _ _ _ _ => rfl⟩

/-- **Run lemma**: no destination has a message more often than it is owed. -/
theorem total_le (hnd : members.Nodup) {P : Act μ → Prop} (h : (lts μ silent).Path P (start μ members) net)
    (hne : src ≠ dst) (k : ℕ) : total net src dst k ≤ owed (net src) dst k := by
  have hsteps : (Lts.ofStep (step (μ := μ) silent)).Path P (start μ members) net := h
  refine (hsteps.keepsStep (I := fun net => Sound members net ∧ total net src dst k ≤ owed (net src) dst k)
    (fun net a net' _ hi hs => ?_) ⟨fun i => ⟨rfl, rfl⟩, le_refl 0⟩).2
  obtain ⟨hsound, hle⟩ := hi
  have := (total_step (k := k) hsound hnd hne hs).1
  exact ⟨hsound.step hnd hs, by omega⟩

/-- Without faults none is lost. -/
theorem total_eq (hnd : members.Nodup) (hsil : ∀ i, silent i = false) {P : Act μ → Prop}
    (hP : ∀ a, P a → ¬ IsFault a) (h : (lts μ silent).Path P (start μ members) net) (hne : src ≠ dst)
    (hd : dst ∈ members) (k : ℕ) : total net src dst k = owed (net src) dst k := by
  have hsteps : (Lts.ofStep (step (μ := μ) silent)).Path P (start μ members) net := h
  refine (hsteps.keepsStep (I := fun net => Sound members net ∧ AllClean net ∧
    total net src dst k = owed (net src) dst k) (fun net a net' ha hi hs => ?_)
    ⟨fun i => ⟨rfl, rfl⟩, fun i => ⟨rfl, fun _ => rfl, fun _ => le_refl 0⟩, rfl⟩).2.2
  obtain ⟨hsound, hclean, heq⟩ := hi
  have := (total_step (k := k) hsound hnd hne hs).2 hclean hsil (hP a ha) hd
  exact ⟨hsound.step hnd hs, hclean.step hsound hnd (hP a ha) hsil hs, by omega⟩

/-! ### What arrives -/

/-- Everything that has come in. -/
def arrivals (st : Station μ) : List (Arrival μ) := st.recv ++ (st.messageChan ++ st.handled)

/-- The sender changes the message. -/
def Writes (src : NodeID) (k : ℕ) : Act μ → Prop
  | .write i j _ => i = src ∧ j = k
  | _ => False

/-- Nothing comes in but by a transmission. -/
theorem arrivals_actAt {sil : Bool} {st st' : Station μ} (h : actAt sil st a = some st') :
    arrivals st' ⊆ arrivals st := by
  cases a with
  | post i dest m | drop i id | slow i id delay | flaky i id p | crash i t =>
    cases h
    exact List.Subset.refl _
  | write i k m | proceed i n r | wake i n | lose i n | expire i n =>
    obtain ⟨_, -, rfl⟩ := Option.map_eq_some_iff.1 h
    exact List.Subset.refl _
  | transmit i n => cases h
  | receive i =>
    obtain ⟨x, rest, hr, ⟨-, rfl⟩ | rfl⟩ := receive_cases h
    · unfold arrivals
      rw [hr]
      exact List.subset_cons_self _ _
    · unfold arrivals
      rw [hr]
      intro y hy
      simp only [List.mem_append, List.mem_cons, List.not_mem_nil, or_false] at hy ⊢
      tauto
  | handle i =>
    obtain ⟨x, rest, hr, rfl⟩ := handle_cases h
    unfold arrivals
    rw [hr]
    intro y hy
    simp only [List.mem_append, List.mem_cons, List.not_mem_nil, or_false] at hy ⊢
    tauto

/-- What was sent stays what it is, unless it is changed. -/
theorem posted_actAt {sil : Bool} {st st' : Station μ} (h : actAt sil st a = some st')
    (hw : ¬ Writes (target a) k a) {p : Option NodeID × μ} (hp : st.posted[k]? = some p) : st'.posted[k]? = some p := by
  cases a with
  | post i dest m =>
    cases h
    exact (List.getElem?_append_left (List.getElem?_eq_some_iff.1 hp).1).trans hp
  | write i j m =>
    obtain ⟨q, -, rfl⟩ := Option.map_eq_some_iff.1 h
    exact (List.getElem?_set_ne fun hj => hw ⟨rfl, hj⟩).trans hp
  | drop i id | slow i id delay | flaky i id p | crash i t =>
    cases h
    exact hp
  | proceed i n r | wake i n | lose i n | expire i n =>
    obtain ⟨_, -, rfl⟩ := Option.map_eq_some_iff.1 h
    exact hp
  | transmit i n => cases h
  | receive i =>
    obtain ⟨x, rest, -, ⟨-, rfl⟩ | rfl⟩ := receive_cases h
    · exact hp
    · exact hp
  | handle i =>
    obtain ⟨x, rest, -, rfl⟩ := handle_cases h
    exact hp

/-- All copies of a message are what the sender has. -/
def Faithful (src : NodeID) (k : ℕ) (net : NodeID → Station μ) : Prop :=
  ∀ j, ∀ y ∈ arrivals (net j), y.src = src → y.ref = k → ∃ dest, (net src).posted[k]? = some (dest, y.body)

theorem Faithful.step (hf : Faithful src k net) (hw : ¬ Writes src k a) (h : step silent net a = some net') :
    Faithful src k net' := by
  intro j y hy hsrc href
  rcases step_cases h with ⟨i, n, rfl, ht⟩ | ⟨st, hst, rfl⟩
  · obtain ⟨x, m, htr⟩ := transmits_of_transmit ht
    rw [(htr.alike src).2.2.1]
    by_cases hj : j = x.1
    · subst hj
      rw [htr.receiver] at hy
      simp only [arrivals, List.mem_append, List.mem_singleton] at hy
      rcases hy with (hy | rfl) | hy
      · exact hf _ y (List.mem_append_left _ hy) hsrc href
      · obtain ⟨dest, hc⟩ := htr.current
        exact ⟨dest, hsrc ▸ href ▸ hc⟩
      · exact hf _ y (List.mem_append_right _ (List.mem_append.2 hy)) hsrc href
    · by_cases hi : j = i
      · subst hi
        obtain ⟨n', -, hs⟩ := htr.sender
        rw [hs] at hy
        exact hf _ y hy hsrc href
      · rw [htr.others j hi hj] at hy
        exact hf _ y hy hsrc href
  · obtain ⟨dest, hp⟩ : ∃ dest, (net src).posted[k]? = some (dest, y.body) := by
      by_cases hj : j = target a
      · subst hj
        rw [Function.update_self] at hy
        exact hf _ y (arrivals_actAt hst hy) hsrc href
      · rw [Function.update_of_ne hj] at hy
        exact hf _ y hy hsrc href
    refine ⟨dest, ?_⟩
    by_cases hi : src = target a
    · subst hi
      rw [Function.update_self]
      exact posted_actAt hst hw hp
    · rw [Function.update_of_ne hi]
      exact hp

theorem faithful_of_path {P : Act μ → Prop} (hP : ∀ a, P a → ¬ Writes src k a)
    (h : (lts μ silent).Path P (start μ members) net) : Faithful src k net := by
  have hsteps : (Lts.ofStep (step (μ := μ) silent)).Path P (start μ members) net := h
  exact hsteps.keepsStep (fun _ a _ ha hi hs => Faithful.step hi (hP a ha) hs) fun j y hy => by cases hy

/-- **Delivery.**  In every run of a deployment over TCP, with any faults injected, a message that a node sends to
another one is handled there at most once, and not at all if it is not for that node.  If the sender does not change
it afterwards, what is handled is what was sent.  And if there are no faults and no silent nodes, then every message
for a node with an address has been handled once, or is once on its way. -/
theorem delivery {μ : Type} (silent : NodeID → Bool) (members : List NodeID) (hnd : members.Nodup) {P : Act μ → Prop}
    {net : NodeID → Station μ} (h : (lts μ silent).Path P (start μ members) net) {src dst : NodeID} (hne : src ≠ dst)
    (k : ℕ) :
    handled (net dst) src k ≤ owed (net src) dst k ∧
    ((∀ a, P a → ¬ Writes src k a) → ∀ y ∈ (net dst).handled, y.src = src → y.ref = k →
      ∃ dest, (net src).posted[k]? = some (dest, y.body)) ∧
    ((∀ a, P a → ¬ IsFault a) → (∀ i, silent i = false) → dst ∈ members →
      handled (net dst) src k + (outgoing (net src) dst k + waiting (net dst) src k) = owed (net src) dst k) := by
  refine ⟨?_, fun hP y hy => ?_, fun hP hsil hd => ?_⟩
  · have hle := total_le hnd h hne k
    unfold total incoming at hle
    omega
  · exact faithful_of_path hP h dst y (List.mem_append_right _ (List.mem_append_right _ hy))
  · have heq := total_eq hnd hsil hP h hne hd k
    unfold total incoming at heq
    omega

instance decidableIsFault : DecidablePred (IsFault (μ := μ))
  | .drop _ _ | .flaky _ _ _ | .crash _ _ | .lose _ _ => .isTrue trivial
  | .post _ _ _ | .write _ _ _ | .proceed _ _ _ | .wake _ _ | .transmit _ _ | .receive _ | .handle _ | .slow _ _ _
  | .expire _ _ => .isFalse id

/-- A broadcast of node 1 that has reached node 2. -/
def firstBroadcast : List (Act ℕ) :=
  .post "1" none 7 :: List.replicate 5 (.proceed "1" 0 0) ++ [.transmit "1" 0, .receive "2", .handle "2"]

/-- It is still on its way to node 3. -/
theorem delivery_firstBroadcast :
    ∃ net, (lts ℕ fun _ => false).Path (fun a => ¬ IsFault a) (start ℕ ["1", "2", "3"]) net ∧
      (net "2").handled = [⟨"1", 0, 7⟩] ∧ (net "3").handled = [] ∧
      handled (net "3") "1" 0 + (outgoing (net "1") "3" 0 + waiting (net "3") "1" 0) = 1 := by
  obtain ⟨net, h, htest⟩ := Lts.exists_path (A := lts ℕ fun _ => false) (P := fun a => ¬ IsFault a)
    (s := start ℕ ["1", "2", "3"]) firstBroadcast (fun net => decide ((net "2").handled = [⟨"1", 0, 7⟩] ∧
      (net "3").handled = [] ∧ owed (net "1") "3" 0 = 1)) (by decide_cbv)
  obtain ⟨h2, h3, howed⟩ := of_decide_eq_true htest
  refine ⟨net, h, h2, h3, ?_⟩
  rw [← howed]
  exact (delivery (fun _ => false) ["1", "2", "3"] (by decide) h (by decide) 0).2.2 (fun _ ha => ha) (fun _ => rfl)
    (by decide)

end Network

end Delivery

end Bamboo
