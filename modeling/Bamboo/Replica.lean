import Bamboo.Pacemaker
import Bamboo.Lib.Network

/-!
# The replica around a protocol

`replica/replica.go`: the event loop that feeds a protocol, and the network of replicas.  A protocol is
an implementation of the interface `Safety`; the replica gives it the received messages, asks it for a
proposal when it enters a view that it leads, and tells it about expired timers.

* Each handler runs to its end before the next one starts.
* `HandleVote` and `HandleTmo` drop a message of an old view before they put it into the event
  channel.  Here a message may wait for any time before it is handled and may also be lost, so every
  schedule of the source is one of ours.
* The payload of a proposal comes from the mempool or from the ordering layer, which are not modelled:
  it is part of the event.
-/

namespace Bamboo

/-- The errors of the implementations of `ProcessBlock`. -/
inductive BlockError
  /-- "the block should contain a QC" -/
  | noQC
  /-- "received a proposal (view) from an invalid leader (proposer)" -/
  | invalidLeader (view : ℤ) (proposer : NodeID)
  /-- "received a stale block" -/
  | stale
  /-- "cannot commit blocks" -/
  | cannotCommit
  /-- "cannot vote for block: ..." -/
  | cannotVote
  deriving DecidableEq, Repr

/-- A message a replica sent. -/
abbrev Envelope := Net.Envelope NodeID Msg

/-- What happens at a replica besides the arrival of messages. -/
inductive Event
  /-- a client's transaction, `handleTxn` -/
  | txn
  /-- the next view event is handled, with what the mempool and the ordering layer have to offer -/
  | newView (payload : List Transaction) (pBatch : PBatch)
  /-- the timer of the current view expires -/
  | timer
  deriving DecidableEq

/-- `replica.Safety`, with the access to the replica's pacemaker and to its network that the
implementations share with the replica. -/
structure Safety (σ : Type) where
  pm : σ → Pacemaker
  setPm : Pacemaker → σ → σ
  /-- everything sent so far, oldest first -/
  outbox : σ → List Envelope
  send : Envelope → σ → σ
  processBlock : Block → Go σ Unit
  processVote : Vote → Go σ Unit
  processRemoteTmo : TMO → Go σ Unit
  processLocalTmo : ℤ → Go σ Unit
  makeProposal : ℤ → List Transaction → Go σ Block
  makePProposal : ℤ → PBatch → Go σ Block

namespace Safety

variable {σ : Type} (sf : Safety σ) (nd : Node)

/-- The first leader kicks off the protocol, in `handleTxn`. -/
def handleTxn : Go σ Unit := do
  let s ← get
  if (sf.pm s).curView = 0 ∧ nd.elec.isLeader nd.id 1 = true then
    set (sf.setPm ((sf.pm s).advanceView 0) s)

/-- `proposeBlock`; `openPhalanx` is always set. -/
def proposeBlock (view : ℤ) (payload : List Transaction) (pBatch : PBatch) : Go σ Unit := do
  let block ← (if 1 < view then sf.makePProposal view pBatch else sf.makeProposal view payload)
  modify (sf.send ⟨none, .block block⟩)
  sf.processBlock block

/-- `processNewView` for the next event of the pacemaker's channel. -/
def processNewView (payload : List Transaction) (pBatch : PBatch) : Go σ Unit := do
  let s ← get
  match (sf.pm s).newViewChan with
  | [] => return
  | newView :: rest =>
    set (sf.setPm { sf.pm s with newViewChan := rest } s)
    if nd.elec.isLeader nd.id newView = false then return
    sf.proposeBlock newView payload pBatch

/-- The loop of `Start`, for one received message. -/
def handleMsg : Msg → Go σ Unit
  | .block b => sf.processBlock b
  | .vote v => sf.processVote v
  | .tmo t => sf.processRemoteTmo t

/-- The other events of a replica. -/
def handleEvent : Event → Go σ Unit
  | .txn => sf.handleTxn nd
  | .newView payload pBatch => sf.processNewView nd payload pBatch
  | .timer => do sf.processLocalTmo (sf.pm (← get)).curView

/-- What one replica is given: a message, whoever sent it, or an event of its own. -/
inductive Input
  | msg (m : Msg)
  | event (e : Event)

/-- One input; a replica that is down does nothing more. -/
def step (p : Net.Proc σ) (x : Input) : Net.Proc σ :=
  if p.up = true then
    match x with
    | .msg m => p.run (sf.handleMsg m)
    | .event e => p.run (sf.handleEvent nd e)
  else p

/-- A run of one replica on a sequence of inputs. -/
def run (init : σ) (inputs : List Input) : Net.Proc σ := inputs.foldl (sf.step nd) ⟨init, true⟩

/-- In the run the views stay integers of the machine, and the view events that wait after an input have room in
the channel: what the bounds of `Bamboo.Pacemaker` ask for. -/
structure Bounded (init : σ) (inputs : List Input) : Prop where
  views : (sf.pm (sf.run nd init inputs).st).InRange
  room : ∀ before later, inputs = before ++ later → (sf.pm (sf.run nd init before).st).HasRoom

/-- The messages among the inputs. -/
def Received (inputs : List Input) (m : Msg) : Prop := .msg m ∈ inputs

/-- `Bounded` as a test. -/
def bounded (init : σ) (inputs : List Input) : Bool :=
  decide (sf.pm (sf.run nd init inputs).st).InRange &&
    inputs.inits.all fun before => decide (sf.pm (sf.run nd init before).st).HasRoom

theorem bounded_of_test {sf : Safety σ} {nd : Node} {init : σ} {inputs : List Input}
    (h : sf.bounded nd init inputs = true) : sf.Bounded nd init inputs := by
  obtain ⟨hviews, hroom⟩ := Bool.and_eq_true_iff.1 h
  refine ⟨of_decide_eq_true hviews, fun before later he => of_decide_eq_true (List.all_eq_true.1 hroom before ?_)⟩
  exact (List.mem_inits before inputs).2 ⟨later, he.symm⟩

theorem run_concat (init : σ) (inputs : List Input) (x : Input) :
    sf.run nd init (inputs ++ [x]) = sf.step nd (sf.run nd init inputs) x := by
  simp [run]

/-- **Invariant rule**: what the handlers keep, on the messages received, holds in every run. -/
theorem run_keeps {P : σ → Prop} {init : σ} (h0 : P init) {inputs : List Input}
    (hmsg : ∀ m s, Received inputs m → P s → P (Prog.final (sf.handleMsg m s)))
    (hev : ∀ e s, P s → P (Prog.final (sf.handleEvent nd e s))) : P (sf.run nd init inputs).st := by
  induction inputs using List.reverseRecOn with
  | nil => exact h0
  | append_singleton inputs x ih =>
    have hprev := ih fun m s hm => hmsg m s (List.mem_append_left _ hm)
    rw [run_concat]
    unfold step
    split_ifs
    · cases x with
      | msg m =>
        rw [Net.Proc.run_st]
        exact hmsg m _ (List.mem_append_right _ (List.mem_singleton_self _)) hprev
      | event e =>
        rw [Net.Proc.run_st]
        exact hev e _ hprev
    · exact hprev

/-- Small steps of the handlers are small steps of the runs.  `R In` are the steps of a replica that has
received the messages `In`, and `Ok In` is what they preserve. -/
theorem run_steps {R : (Msg → Prop) → σ → σ → Prop} {Ok : (Msg → Prop) → σ → Prop} {init : σ}
    (hR : ∀ {In In' : Msg → Prop} {s t}, (∀ m, In m → In' m) → R In s t → R In' s t)
    (hok : ∀ {In In' : Msg → Prop} {s}, (∀ m, In m → In' m) → Ok In s → Ok In' s)
    (hinit : ∀ In, Ok In init) (hstep : ∀ {In s t}, Ok In s → R In s t → Ok In t)
    (hmsg : ∀ {In s m}, Ok In s → In m →
      Relation.ReflTransGen (R In) s (Prog.final (sf.handleMsg m s)))
    (hev : ∀ {In s e}, Ok In s →
      Relation.ReflTransGen (R In) s (Prog.final (sf.handleEvent nd e s))) (inputs : List Input) :
    Relation.ReflTransGen (R (Received inputs)) init (sf.run nd init inputs).st ∧
      Ok (Received inputs) (sf.run nd init inputs).st := by
  have hsteps : ∀ {In s t}, Ok In s → Relation.ReflTransGen (R In) s t → Ok In t := by
    intro In s t h hst
    induction hst with
    | refl => exact h
    | tail _ h' ih => exact hstep ih h'
  induction inputs using List.reverseRecOn with
  | nil => exact ⟨.refl, hinit _⟩
  | append_singleton inputs x ih =>
    obtain ⟨hst, ho⟩ := ih
    have hmono : ∀ m, Received inputs m → Received (inputs ++ [x]) m :=
      fun m hm => List.mem_append_left _ hm
    -- the steps so far, with one more message received
    have hst' : Relation.ReflTransGen (R (Received (inputs ++ [x]))) init (sf.run nd init inputs).st :=
      Relation.ReflTransGen.mono (fun _ _ h => hR hmono h) _ _ hst
    have ho' := hok hmono ho
    rw [run_concat]
    unfold step
    split_ifs
    · cases x with
      | msg m =>
        have h := hmsg ho' (show Received (inputs ++ [.msg m]) m by simp [Received])
        rw [Net.Proc.run_st]
        exact ⟨hst'.trans h, hsteps ho' h⟩
      | event e =>
        have h := hev (e := e) ho'
        rw [Net.Proc.run_st]
        exact ⟨hst'.trans h, hsteps ho' h⟩
    · exact ⟨hst', ho'⟩

end Safety

/-- An honest node of a deployment. -/
def Config.honest (cf : Config) (id : NodeID) : Node := { cf with id := id, isByz := false }

/-- The network of the replicas `members`, all honest, that run one protocol. -/
def network {σ : Type} (cf : Config) (members : List NodeID) (protocol : Node → Safety σ)
    (init : σ) : Net.System NodeID Msg Event Fault σ where
  members := members
  init := init
  outbox := fun s => (protocol (cf.honest "")).outbox s
  receive := fun i m => (protocol (cf.honest i)).handleMsg m
  enabled := fun i e s =>
    match e with
    | .newView _ _ => !((protocol (cf.honest i)).pm s).newViewChan.isEmpty
    | _ => true
  trigger := fun i e => (protocol (cf.honest i)).handleEvent (cf.honest i) e

/-- What an event of the network gives to one replica. -/
def inputOf (i : NodeID) : Net.Action NodeID Msg Event → Option Safety.Input
  | .deliver _ dst m => if dst = i then some (.msg m) else none
  | .fire j e => if j = i then some (.event e) else none

/-- What one replica is given in the course of some events. -/
def inputsOf (i : NodeID) (as : List (Net.Action NodeID Msg Event)) : List Safety.Input :=
  as.filterMap (inputOf i)

/-- **In a run of the network every replica makes a run of its own.** -/
theorem proc_eq_run {σ : Type} {cf : Config} {members : List NodeID} {protocol : Node → Safety σ}
    {init : σ} {C : List (Net.Action NodeID Msg Event) → (NodeID → Net.Proc σ) →
      Net.Action NodeID Msg Event → Prop} {as : List (Net.Action NodeID Msg Event)}
    {net : NodeID → Net.Proc σ} (h : (network cf members protocol init).Runs C as net) (i : NodeID) :
    net i = (protocol (cf.honest i)).run (cf.honest i) init (inputsOf i as) := by
  induction h with
  | start => rfl
  | @step as net a h hc _ ih =>
    have hother : ∀ j, j ≠ i → inputOf i a = none → Net.System.Action.target a = j →
        (network cf members protocol init).act net a i =
          (protocol (cf.honest i)).run (cf.honest i) init (inputsOf i (as ++ [a])) := by
      intro j hj hnone htarget
      rw [inputsOf, List.filterMap_append, List.filterMap_cons_none hnone, List.filterMap_nil,
        List.append_nil, Net.System.act, Function.update_of_ne (htarget ▸ hj.symm)]
      exact ih
    have hself : ∀ x, inputOf i a = some x →
        (protocol (cf.honest i)).run (cf.honest i) init (inputsOf i (as ++ [a])) =
          (protocol (cf.honest i)).step (cf.honest i) (net i) x := by
      intro x hx
      rw [inputsOf, List.filterMap_append, List.filterMap_cons_some hx, List.filterMap_nil, Safety.run,
        List.foldl_append, List.foldl_cons, List.foldl_nil, ih]
      rfl
    cases a with
    | deliver src dst m =>
      by_cases hd : dst = i
      · subst hd
        rw [hself (.msg m) (by simp [inputOf]), Safety.step, if_pos hc.2.1]
        exact Function.update_self ..
      · exact hother dst hd (by simp [inputOf, hd]) rfl
    | fire j e =>
      by_cases hj : j = i
      · subst hj
        rw [hself (.event e) (by simp [inputOf]), Safety.step, if_pos hc.2.1]
        exact Function.update_self ..
      · exact hother j hj (by simp [inputOf, hj]) rfl

/-- The block of a message, if it is one. -/
def blockOf (e : Envelope) : Option Block :=
  match e.body with
  | .block b => some b
  | _ => none

/-- All blocks that the members have sent. -/
def blocksSent {σ : Type} (outbox : σ → List Envelope) (members : List NodeID) (w : NodeID → σ) :
    List Block :=
  members.flatMap fun i => (outbox (w i)).filterMap blockOf

theorem mem_blocksSent {σ : Type} {outbox : σ → List Envelope} {members : List NodeID}
    {w : NodeID → σ} (h : ∀ i, i ∉ members → outbox (w i) = []) {b : Block}
    (hb : Net.Sent outbox w (.block b)) : b ∈ blocksSent outbox members w := by
  obtain ⟨i, e, he, hbody⟩ := hb
  have hi : i ∈ members := by
    by_contra hi
    rw [h i hi] at he
    cases he
  exact List.mem_flatMap.2 ⟨i, hi, List.mem_filterMap.2 ⟨e, he, by rw [blockOf, hbody]⟩⟩

theorem mem_filterMap_blockOf {sent : List Envelope} {e : Envelope} (he : e ∈ sent) {b : Block}
    (hb : e.body = .block b) : b ∈ sent.filterMap blockOf :=
  List.mem_filterMap.2 ⟨e, he, by rw [blockOf, hb]⟩

theorem exists_of_mem_filterMap_blockOf {sent : List Envelope} {b : Block}
    (h : b ∈ sent.filterMap blockOf) : ∃ e ∈ sent, e.body = .block b := by
  obtain ⟨e, he, hb⟩ := List.mem_filterMap.1 h
  refine ⟨e, he, ?_⟩
  rw [blockOf] at hb
  split at hb
  · next b' hbody => rw [hbody, Option.some.inj hb]
  · cases hb

/-! ### One proposal for each view -/

/-- The views a replica has proposed in, and those it still has an event for. -/
def proposalViews (pm : Pacemaker) (sent : List Envelope) : List ℤ :=
  (sent.filterMap blockOf).map Block.view ++ pm.newViewChan

/-- The replica proposes in each view at most once, in the order of the views. -/
structure Ordered (pm : Pacemaker) (sent : List Envelope) : Prop where
  cur : 0 ≤ pm.curView
  views : (proposalViews pm sent).Pairwise (· < ·)
  bounds : ∀ v ∈ proposalViews pm sent, 1 ≤ v ∧ v ≤ pm.curView

theorem ordered_new (n : ℕ) : Ordered (.new n) [] where
  cur := by simp [Pacemaker.new]
  views := by simp [proposalViews, Pacemaker.new]
  bounds := by simp [proposalViews, Pacemaker.new]

namespace Ordered

variable {pm pm' : Pacemaker} {sent sent' : List Envelope}

/-- A step that proposes nothing and enters no view. -/
theorem congr (h : Ordered pm sent) (hc : pm'.curView = pm.curView)
    (hv : proposalViews pm' sent' = proposalViews pm sent) : Ordered pm' sent' :=
  ⟨hc ▸ h.cur, hv ▸ h.views, hv ▸ hc ▸ h.bounds⟩

theorem advance (h : Ordered pm sent) (v : ℤ) : Ordered (pm.advanceView v) sent := by
  by_cases hlt : v < pm.curView
  · rw [Pacemaker.advanceView_of_lt hlt]
    exact h
  · have hle : pm.curView ≤ v := by omega
    rw [Pacemaker.advanceView_of_le hle]
    have hviews : proposalViews { pm with curView := v + 1, newViewChan := pm.newViewChan ++ [v + 1] }
        sent = proposalViews pm sent ++ [v + 1] := by
      rw [proposalViews, proposalViews, List.append_assoc]
    have hcur := h.cur
    refine ⟨by dsimp only; omega, ?_, ?_⟩
    · rw [hviews, List.pairwise_append]
      refine ⟨h.views, List.pairwise_singleton _ _, fun x hx y hy => ?_⟩
      have := (h.bounds x hx).2
      rw [List.mem_singleton.1 hy]
      omega
    · intro x hx
      rw [hviews, List.mem_append, List.mem_singleton] at hx
      dsimp only
      rcases hx with hx | rfl
      · have := h.bounds x hx
        omega
      · omega

/-- An event is dropped: the list of views loses an element. -/
theorem pop (h : Ordered pm sent) {v : ℤ} {rest : List ℤ} (hq : pm.newViewChan = v :: rest) :
    Ordered { pm with newViewChan := rest } sent := by
  have hsub : List.Sublist (proposalViews { pm with newViewChan := rest } sent)
      (proposalViews pm sent) := by
    simp only [proposalViews, hq]
    exact (List.Sublist.refl _).append (List.sublist_cons_self v rest)
  exact ⟨h.cur, h.views.sublist hsub, fun x hx => h.bounds x (hsub.subset hx)⟩

/-- The event of a proposal moves from the channel to the outbox. -/
theorem propose (h : Ordered pm sent) {v : ℤ} {rest : List ℤ} (hq : pm.newViewChan = v :: rest)
    {b : Block} (hb : b.view = v) :
    Ordered { pm with newViewChan := rest } (sent ++ [⟨none, .block b⟩]) :=
  h.congr rfl (by simp [proposalViews, blockOf, hq, hb])

theorem send (h : Ordered pm sent) {e : Envelope} (he : blockOf e = none) :
    Ordered pm (sent ++ [e]) :=
  h.congr rfl (by simp [proposalViews, he])

variable {b b' : Block}

theorem view_bounds (h : Ordered pm sent) (hb : b ∈ sent.filterMap blockOf) :
    1 ≤ b.view ∧ b.view ≤ pm.curView :=
  h.bounds b.view (List.mem_append_left _ (List.mem_map_of_mem hb))

theorem unique (h : Ordered pm sent) (hb : b ∈ sent.filterMap blockOf)
    (hb' : b' ∈ sent.filterMap blockOf) (hv : b.view = b'.view) : b = b' := by
  have hpw := (List.pairwise_append.1 h.views).1
  exact List.inj_on_of_nodup_map (hpw.imp fun h => Int.ne_of_lt h) hb hb' hv

end Ordered

end Bamboo
