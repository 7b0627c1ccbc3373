import TaoDag.Node.DagNode
import TaoDag.Runtime.Transfer
import Mathlib.Data.Fintype.BigOperators
import Mathlib.Algebra.Order.BigOperators.Group.Finset

namespace TaoDag.Node

open Consensus (DagBlock)
open Database (AppendFault ReplaceFault BlockLog)
open Dagvm (DagChain)
open TaoDag.Runtime (Env)

variable {Tx ι : Type} {env : Env Tx}

/-- The ids of blocks. -/
def ids (env : Env Tx) (blocks : List DagBlock) : List Hash := blocks.map fun b => b.id env.blake3

/-- How often a block is buffered or relayed. -/
def Pass.places (env : Env Tx) (s : Pass Tx) (id : Hash) : Nat :=
  (ids env s.still).count id + (ids env s.relay).count id

/-- A call of `accept` puts its block in one place at most. -/
theorem acceptOne_places {input : Nat → AcceptInput} {s s' : Pass Tx} {block : DagBlock}
    (run : DagNode.acceptOne env input s block = .ok s') (id : Hash) :
    s'.places env id ≤ s.places env id + (ids env [block]).count id := by
  obtain ⟨⟨r, chain⟩, _, run⟩ := bind_eq_ok.mp run
  cases r with
  | ok u =>
    cases run
    simp only [Pass.places, ids, List.map_append, List.count_append]
    omega
  | error e =>
    by_cases he : containsText e "orphan" = true
    · simp only [if_pos he] at run
      cases run
      simp only [Pass.places, ids, List.map_append, List.count_append]
      omega
    · simp only [if_neg he] at run
      cases run
      simp only [Pass.places]
      omega

/-- So does a pass with each block of its input. -/
theorem pass_places {input : Nat → AcceptInput} {s s' : Pass Tx} {pending : List DagBlock}
    (run : pending.foldlM (DagNode.acceptOne env input) s = .ok s') (id : Hash) :
    s'.places env id ≤ s.places env id + (ids env pending).count id := by
  induction pending generalizing s with
  | nil =>
    cases run
    simp [ids]
  | cons block pending ih =>
    rw [List.foldlM_cons] at run
    obtain ⟨s₁, hone, run⟩ := bind_eq_ok.mp run
    have hfirst := acceptOne_places hone id
    have hrest := ih run
    have hcount : (ids env (block :: pending)).count id =
        (ids env [block]).count id + (ids env pending).count id := by
      rw [← List.count_append, ids, ids, ids, ← List.map_append, List.singleton_append]
    omega

/-- The loop relays or keeps each block of the buffer once at most. -/
theorem pendingLoop_places {input : Nat → AcceptInput} {fuel : Nat} {s s' : Pass Tx}
    {pending : List DagBlock} (run : DagNode.pendingLoop env input fuel s pending = .ok s')
    (id : Hash) :
    s'.places env id ≤ (ids env pending).count id + (ids env s.relay).count id := by
  induction fuel generalizing s pending with
  | zero => cases run
  | succ fuel ih =>
    obtain ⟨s₁, hpass, run⟩ := bind_eq_ok.mp run
    have hplaces := pass_places hpass id
    have hstart : Pass.places env { s with progress := false, still := [] } id =
        (ids env s.relay).count id := by
      simp [Pass.places, ids]
    rw [hstart] at hplaces
    by_cases hp : s₁.progress = true
    · simp only [if_pos hp] at run
      have hrest := ih run
      rw [Pass.places] at hplaces
      omega
    · simp only [if_neg hp] at run
      cases run
      omega

theorem receive_pending {Peer : Type} {io : Option ReplaceFault} {now : Int} {n n' : DagNode Tx}
    {peer : Peer} {msg : NetMsg} {sends : List (Outgoing Peer)}
    (run : n.receive env io now peer msg = .ok (n', sends)) :
    n'.pending = n.pending ∨ ∃ bytes block, msg = .newBlock bytes ∧
      DagBlock.fromBytes bytes = .ok block ∧ n'.pending = n.pending ++ [block] := by
  cases msg with
  | newBlock bytes =>
    rw [DagNode.receive] at run
    cases hb : DagBlock.fromBytes bytes with
    | error e =>
      rw [hb] at run
      cases run
      exact Or.inl rfl
    | ok block =>
      rw [hb] at run
      cases run
      exact Or.inr ⟨bytes, block, rfl, hb, rfl⟩
  | getBlock id =>
    rw [DagNode.receive] at run
    cases hb : n.chain.getBlock env id with
    | none =>
      rw [hb] at run
      cases run
      exact Or.inl rfl
    | some block =>
      rw [hb] at run
      cases run
      exact Or.inl rfl
  | getTips =>
    cases run
    exact Or.inl rfl
  | tips ids =>
    cases run
    exact Or.inl rfl
  | getSnapshot =>
    obtain ⟨snap, _, run⟩ := bind_eq_ok.mp run
    cases snap with
    | none =>
      cases run
      exact Or.inl rfl
    | some bytes =>
      cases run
      exact Or.inl rfl
  | snapshot bytes =>
    obtain ⟨⟨_, chain⟩, _, run⟩ := bind_eq_ok.mp run
    cases run
    exact Or.inl rfl

theorem maintain_pending {io : Option ReplaceFault} {n n' : DagNode Tx}
    (run : n.maintain env io = .ok n') : n'.pending = n.pending := by
  obtain ⟨⟨r, chain⟩, _, run⟩ := bind_eq_ok.mp run
  cases r with
  | error e =>
    cases run
    rfl
  | ok bank =>
    obtain ⟨⟨_, chain'⟩, _, run⟩ := bind_eq_ok.mp run
    cases run
    rfl

theorem mine_pending {Peer : Type} {io : Option AppendFault} {n n' : DagNode Tx} {txs : List Tx}
    {timestamp : BitVec 64} {r : Except String (List (Outgoing Peer))}
    (run : n.mine env io txs timestamp = .ok (r, n')) : n'.pending = n.pending := by
  obtain ⟨⟨mined, chain⟩, _, run⟩ := bind_eq_ok.mp run
  cases mined with
  | error e =>
    cases run
    rfl
  | ok block =>
    obtain ⟨⟨_, chain'⟩, _, run⟩ := bind_eq_ok.mp run
    cases run
    rfl

/-- A network of DAG nodes: their states, the messages on their way, and the ids of the blocks
that each node has relayed so far. -/
structure World (Tx ι : Type) where
  node : ι → DagNode Tx
  inFlight : List (ι × ι × NetMsg)
  relayed : ι → List Hash

section Network

variable [DecidableEq ι]

/-- The messages of node `j` on their way to its peers. -/
def post (peers : ι → List ι) (j : ι) (sends : List (Outgoing ι)) : List (ι × ι × NetMsg) :=
  sends.flatMap fun
    | .broadcast msg => (peers j).map fun i => (j, i, msg)
    | .sendTo i msg => [(j, i, msg)]

def World.setNode (w : World Tx ι) (j : ι) (n : DagNode Tx) (sent : List (ι × ι × NetMsg)) :
    World Tx ι :=
  { w with node := Function.update w.node j n, inFlight := w.inFlight ++ sent }

/-- What can happen next: a node handles a message that meets `P`, a message is lost, or a node
goes through one part of its loop. Messages arrive in any order. -/
inductive Step (env : Env Tx) (peers : ι → List ι) (P : World Tx ι → ι → NetMsg → Prop)
    (w : World Tx ι) : World Tx ι → Prop
  | deliver {i j : ι} {msg : NetMsg} {before after : List (ι × ι × NetMsg)}
      {io : Option ReplaceFault} {now : Int} {n : DagNode Tx} {sends : List (Outgoing ι)}
      (inFlight : w.inFlight = before ++ (i, j, msg) :: after) (meets : P w j msg)
      (run : (w.node j).receive env io now i msg = .ok (n, sends)) :
      Step env peers P w
        ({ w with inFlight := before ++ after }.setNode j n (post peers j sends))
  | lose {msg : ι × ι × NetMsg} {before after : List (ι × ι × NetMsg)}
      (inFlight : w.inFlight = before ++ msg :: after) :
      Step env peers P w { w with inFlight := before ++ after }
  | applyPending {j : ι} {input : Nat → AcceptInput} {n : DagNode Tx} {relay : List DagBlock}
      (run : (w.node j).applyPending env input = .ok (n, relay)) :
      Step env peers P w
        { w.setNode j n (post peers j
            (relay.map fun b => .broadcast (.newBlock (DagBlock.codec.encode b)))) with
          relayed := Function.update w.relayed j (w.relayed j ++ ids env relay) }
  | ask {j : ι} {sends : List (Outgoing ι)}
      (sends_eq : sends = (w.node j).backfill ∨ sends = [.broadcast .getTips] ∨
        ∃ i, sends = [.sendTo i .getSnapshot]) :
      Step env peers P w { w with inFlight := w.inFlight ++ post peers j sends }
  | maintain {j : ι} {io : Option ReplaceFault} {n : DagNode Tx}
      (run : (w.node j).maintain env io = .ok n) : Step env peers P w (w.setNode j n [])
  | mine {j : ι} {io : Option AppendFault} {txs : List Tx} {timestamp : BitVec 64}
      {sends : List (Outgoing ι)} {n : DagNode Tx}
      (run : (w.node j).mine env io txs timestamp = .ok (.ok sends, n)) :
      Step env peers P w (w.setNode j n (post peers j sends))

/-- The runs of a network whose deliveries meet `P`. -/
def Runs (env : Env Tx) (peers : ι → List ι) (P : World Tx ι → ι → NetMsg → Prop) :
    World Tx ι → World Tx ι → Prop :=
  Relation.ReflTransGen (Step env peers P)

/-- A message that announces no block which its receiver has buffered or has relayed before. -/
def AnnouncesOnce (env : Env Tx) (w : World Tx ι) (j : ι) (msg : NetMsg) : Prop :=
  ∀ bytes block, msg = .newBlock bytes → DagBlock.fromBytes bytes = .ok block →
    block.id env.blake3 ∉ ids env (w.node j).pending ∧ block.id env.blake3 ∉ w.relayed j

/-- Each block is in one place of a node at most: its buffer, or the blocks it has relayed. -/
def OnePlace (env : Env Tx) (w : World Tx ι) : Prop :=
  ∀ j id, (ids env (w.node j).pending).count id + (w.relayed j).count id ≤ 1

theorem OnePlace.setNode {w : World Tx ι} {j : ι} {n : DagNode Tx}
    {sent : List (ι × ι × NetMsg)} (h : OnePlace env w)
    (hn : ∀ id, (ids env n.pending).count id + (w.relayed j).count id ≤ 1) :
    OnePlace env (w.setNode j n sent) := by
  intro i id
  by_cases hi : i = j
  · subst hi
    simp only [World.setNode, Function.update_self]
    exact hn id
  · simp only [World.setNode, Function.update_of_ne hi]
    exact h i id

theorem OnePlace.step {peers : ι → List ι} {w w' : World Tx ι} (h : OnePlace env w)
    (step : Step env peers (AnnouncesOnce env) w w') : OnePlace env w' := by
  cases step with
  | @deliver i j msg before after io now n sends hflight hmeets hrun =>
    refine OnePlace.setNode (w := { w with inFlight := before ++ after }) h fun id => ?_
    rcases receive_pending hrun with hp | ⟨bytes, block, hmsg, hblock, hp⟩
    · rw [hp]
      exact h j id
    · obtain ⟨hpending, hrelayed⟩ := hmeets bytes block hmsg hblock
      rw [hp, ids, List.map_append, List.count_append]
      by_cases hid : block.id env.blake3 = id
      · rw [← hid, List.count_eq_zero_of_not_mem hrelayed,
          ← ids, List.count_eq_zero_of_not_mem hpending]
        simp
      · have hother : (List.map (fun b : DagBlock => b.id env.blake3) [block]).count id = 0 := by
          simp [hid]
        rw [hother]
        exact h j id
  | lose hflight => exact h
  | @applyPending j input n relay hrun =>
    obtain ⟨s, hloop, hrun⟩ := bind_eq_ok.mp hrun
    cases hrun
    intro i id
    by_cases hi : i = j
    · subst hi
      have hplaces := pendingLoop_places hloop id
      have hbefore := h i id
      simp only [World.setNode, Function.update_self, List.count_append]
      simp only [Pass.places, ids, List.map_nil, List.count_nil] at hplaces hbefore ⊢
      omega
    · simp only [World.setNode, Function.update_of_ne hi]
      exact h i id
  | ask _ => exact h
  | @maintain j io n hrun =>
    refine h.setNode fun id => ?_
    rw [maintain_pending hrun]
    exact h j id
  | @mine j io txs timestamp sends n hrun =>
    refine h.setNode fun id => ?_
    rw [mine_pending hrun]
    exact h j id

/-- As long as no message announces a block to a node that has it buffered or has relayed it,
every node relays a block once at most, and the network as often as it has nodes. -/
theorem relays_once [Fintype ι] {peers : ι → List ι} {w w' : World Tx ι}
    (run : Runs env peers (AnnouncesOnce env) w w') (hempty : ∀ j, (w.node j).pending = [])
    (hnone : ∀ j, w.relayed j = []) (id : Hash) :
    (∀ j, (w'.relayed j).count id ≤ 1) ∧
      ∑ j, (w'.relayed j).count id ≤ Fintype.card ι := by
  have hinv : OnePlace env w' := by
    induction run with
    | refl =>
      intro j id
      rw [hempty, hnone]
      simp [ids]
    | tail _ hstep ih => exact ih.step hstep
  have hone : ∀ j, (w'.relayed j).count id ≤ 1 := by
    intro j
    have hj := hinv j id
    omega
  refine ⟨hone, ?_⟩
  calc ∑ j, (w'.relayed j).count id ≤ ∑ _j : ι, 1 := Finset.sum_le_sum fun j _ => hone j
    _ = Fintype.card ι := by simp

end Network

section Example

open Dagvm (easyParams easyChild)
open TaoDag.Runtime (Transaction transferEnv)

/-- A lone buffered block that is accepted, or was accepted before, is relayed. -/
theorem applyPending_accepted {c c' : DagChain Tx} {b : DagBlock} {input : Nat → AcceptInput}
    (h : c.accept env (input 0).io (input 0).now b = .ok (.ok (), c')) :
    DagNode.applyPending env input ⟨c, [b]⟩ = .ok (⟨c', []⟩, [b]) := by
  simp only [DagNode.applyPending, DagNode.pendingLoop, List.length_singleton, List.foldlM_cons,
    List.foldlM_nil, DagNode.acceptOne, h]
  rfl

/-- Each node is the only peer of the other. -/
def opposite (j : Bool) : List Bool := [!j]

/-- The announcement of a block to node `j`, alone on its way. -/
def announced (b : DagBlock) (j : Bool) : List (Bool × Bool × NetMsg) :=
  [(!j, j, .newBlock (DagBlock.codec.encode b))]

/-- A node that accepts an announced block relays it, so that its announcement is on the way
back. -/
theorem relay_back {b : DagBlock} (hb : b.Fits) {j : Bool} {w : World Tx Bool}
    {P : World Tx Bool → Bool → NetMsg → Prop} {c' : DagChain Tx} {now : Int}
    (hflight : w.inFlight = announced b j) (hmeets : P w j (.newBlock (DagBlock.codec.encode b)))
    (hpending : (w.node j).pending = [])
    (haccept : (w.node j).chain.accept env none now b = .ok (.ok (), c')) :
    ∃ w', Runs env opposite P w w' ∧ w'.inFlight = announced b (!j) ∧
      w'.node = Function.update w.node j ⟨c', []⟩ ∧
      w'.relayed = Function.update w.relayed j (w.relayed j ++ [b.id env.blake3]) := by
  have hreceive : (w.node j).receive env none now (!j) (.newBlock (DagBlock.codec.encode b)) =
      .ok (⟨(w.node j).chain, [b]⟩, []) := by
    rw [DagNode.receive, DagBlock.fromBytes_encode hb]
    simp only [hpending]
    rfl
  let w₁ : World Tx Bool :=
    { w with inFlight := [] ++ [] }.setNode j ⟨(w.node j).chain, [b]⟩ (post opposite j [])
  have hflight' : w.inFlight = [] ++ (!j, j, .newBlock (DagBlock.codec.encode b)) :: [] := hflight
  have hdeliver : Step env opposite P w w₁ := .deliver hflight' hmeets hreceive
  have hpass : (w₁.node j).applyPending env (fun _ => ⟨none, now⟩) = .ok (⟨c', []⟩, [b]) := by
    simp only [w₁, World.setNode, Function.update_self]
    exact applyPending_accepted haccept
  refine ⟨_, .tail (.single hdeliver) (.applyPending hpass), ?_, ?_, ?_⟩
  · simp [w₁, World.setNode, post, announced, opposite]
  · simp [w₁, World.setNode]
  · simp [w₁, World.setNode, ids]

/-- A node that has the block sends its announcement back, and is otherwise as before. -/
theorem relay_known {b : DagBlock} (hb : b.Fits) {j : Bool} {w : World Tx Bool}
    (hflight : w.inFlight = announced b j) (hknown : b.id env.blake3 ∈ (w.node j).chain.blocks)
    (hpending : (w.node j).pending = []) :
    ∃ w', Runs env opposite (fun _ _ _ => True) w w' ∧ w'.inFlight = announced b (!j) ∧
      w'.node = w.node ∧
      w'.relayed = Function.update w.relayed j (w.relayed j ++ [b.id env.blake3]) := by
  have haccept : (w.node j).chain.accept env none 0 b = .ok (.ok (), (w.node j).chain) := by
    rw [DagChain.accept, if_pos hknown]
    rfl
  obtain ⟨w', hruns, hback, hnode, hrelayed⟩ := relay_back (P := fun _ _ _ => True) hb hflight trivial hpending haccept
  refine ⟨w', hruns, hback, ?_, hrelayed⟩
  rw [hnode, ← hpending, Function.update_eq_self]

/-- Once both nodes have a block, its announcement goes to and fro for ever. -/
theorem relays_unbounded {b : DagBlock} (hb : b.Fits) {w : World Tx Bool}
    (hknown : ∀ i, b.id env.blake3 ∈ (w.node i).chain.blocks)
    (hpending : ∀ i, (w.node i).pending = []) {j : Bool} (hflight : w.inFlight = announced b j)
    (N : Nat) : ∃ w', Runs env opposite (fun _ _ _ => True) w w' ∧
      N ≤ (w'.relayed j).count (b.id env.blake3) ∧ w'.inFlight = announced b j ∧
      w'.node = w.node := by
  induction N with
  | zero => exact ⟨w, .refl, Nat.zero_le _, hflight, rfl⟩
  | succ N ih =>
    obtain ⟨w₁, hruns₁, hcount, hflight₁, hnode₁⟩ := ih
    obtain ⟨w₂, hruns₂, hflight₂, hnode₂, hrelayed₂⟩ :=
      relay_known hb hflight₁ (hnode₁ ▸ hknown j) (hnode₁ ▸ hpending j)
    have hnode₂' : w₂.node = w.node := hnode₂.trans hnode₁
    obtain ⟨w₃, hruns₃, hflight₃, hnode₃, hrelayed₃⟩ :=
      relay_known hb hflight₂ (hnode₂' ▸ hknown (!j)) (hnode₂' ▸ hpending (!j))
    refine ⟨w₃, (hruns₁.trans hruns₂).trans hruns₃, ?_, ?_, hnode₃.trans hnode₂'⟩
    · have hne : j ≠ !j := by cases j <;> decide
      rw [hrelayed₃, Function.update_of_ne hne, hrelayed₂, Function.update_self,
        List.count_append, List.count_singleton_self]
      omega
    · rw [hflight₃, Bool.not_not]

/-- Two nodes on the easy genesis, each the only peer of the other. One mines a block, which the
other accepts. -/
private theorem mined_start : ∃ (start mined : World Transaction Bool) (b : DagBlock)
    (c' : DagChain Transaction),
    (∀ j, (start.node j).pending = [] ∧ start.relayed j = [] ∧
      DagChain.openWithGenesis transferEnv easyParams [] = .ok (.ok (start.node j).chain)) ∧
    start.inFlight = [] ∧ (∀ P, Step transferEnv opposite P start mined) ∧ b.Fits ∧
    mined.inFlight = announced b false ∧
    (∀ j, (mined.node j).pending = [] ∧ mined.relayed j = []) ∧
    b.id transferEnv.blake3 ∈ (mined.node true).chain.blocks ∧
    (mined.node false).chain.accept transferEnv none 1750000010 b = .ok (.ok (), c') ∧
    b.id transferEnv.blake3 ∈ c'.blocks := by
  have hrun : returnsWith (DagChain.openWithGenesis transferEnv easyParams []) (fun o =>
      returnsWith o fun c =>
        returnsWith (c.mineAt transferEnv none [] 1750000010) (fun m =>
          returnsWith m.1 (fun b => decide (b = easyChild [])) &&
            returnsWith (m.2.virtualState transferEnv) fun v =>
              decide ((easyChild []).id Blake3.hash ∈ v.2.blocks)) &&
        returnsWith (c.accept transferEnv none 1750000010 (easyChild [])) fun a =>
          returnsWith a.1 (fun _ => true) &&
            decide ((easyChild []).id Blake3.hash ∈ a.2.blocks)) = true := by
    decide +kernel
  obtain ⟨_, hopen, h⟩ := returnsWith_iff.mp hrun
  obtain ⟨c, rfl, h⟩ := returnsWith_iff.mp h
  obtain ⟨hmined, haccepted⟩ := (Bool.and_eq_true _ _).mp h
  obtain ⟨⟨_, c₁⟩, hmine, h⟩ := returnsWith_iff.mp hmined
  obtain ⟨hblock, hvirtual⟩ := (Bool.and_eq_true _ _).mp h
  obtain ⟨b, rfl, hb⟩ := returnsWith_iff.mp hblock
  obtain ⟨⟨_, c₂⟩, hvirtual, hknown₂⟩ := returnsWith_iff.mp hvirtual
  obtain ⟨⟨_, c'⟩, haccept, h⟩ := returnsWith_iff.mp haccepted
  obtain ⟨hok, hknown'⟩ := (Bool.and_eq_true _ _).mp h
  obtain ⟨_, rfl, _⟩ := returnsWith_iff.mp hok
  rw [of_decide_eq_true hb] at hmine
  have hfits : (easyChild []).Fits :=
    ⟨⟨by decide, by decide⟩, by decide, fun t ht => (by cases ht)⟩
  have hknown' : (easyChild []).id Blake3.hash ∈ c'.blocks := of_decide_eq_true hknown'
  have hknown₂ : (easyChild []).id Blake3.hash ∈ c₂.blocks := of_decide_eq_true hknown₂
  clear hrun
  generalize easyChild [] = b at hmine haccept hknown' hknown₂ hfits
  let start : World Transaction Bool := ⟨fun _ => ⟨c, []⟩, [], fun _ => []⟩
  let sends : List (Outgoing Bool) :=
    [.broadcast (.newBlock (DagBlock.codec.encode b))]
  have hnode : (start.node true).mine transferEnv none [] 1750000010 =
      .ok (.ok sends, ⟨c₂, []⟩) := by
    simp only [start, DagNode.mine, hmine, hvirtual, bind, Except.bind]
    rfl
  let mined := start.setNode true ⟨c₂, []⟩ (post opposite true sends)
  refine ⟨start, mined, b, c', fun _ => ⟨rfl, rfl, hopen⟩, rfl, fun P => .mine hnode, hfits, rfl,
    fun j => ⟨?_, rfl⟩, hknown₂, haccept, hknown'⟩
  cases j <;> rfl

/-- The other node relays the block once. -/
theorem relays_once_mined : ∃ (start w : World Transaction Bool) (id : Hash),
    Runs transferEnv opposite (AnnouncesOnce transferEnv) start w ∧
      (w.relayed false).count id = 1 ∧ ∀ j, (w.relayed j).count id ≤ 1 := by
  obtain ⟨start, mined, b, c', hstart, _, hmine, hfits, hflight, hquiet, _, haccept, _⟩ :=
    mined_start
  have hmeets : AnnouncesOnce transferEnv mined false (.newBlock (DagBlock.codec.encode b)) := by
    intro bytes block _ _
    rw [(hquiet false).1, (hquiet false).2]
    exact ⟨List.not_mem_nil, List.not_mem_nil⟩
  obtain ⟨w, hruns, _, _, hrelayed⟩ :=
    relay_back hfits hflight hmeets (hquiet false).1 haccept
  have hall := Relation.ReflTransGen.head (hmine _) hruns
  refine ⟨start, w, b.id transferEnv.blake3, hall, ?_,
    (relays_once hall (fun j => (hstart j).1) (fun j => (hstart j).2.1) _).1⟩
  rw [hrelayed, Function.update_self, (hquiet false).2]
  simp

/-- The other node relays the block as often as one likes. -/
theorem mined_block_bounces : ∃ (start mined : World Transaction Bool) (b : DagBlock),
    (∀ j, (start.node j).pending = [] ∧ start.relayed j = [] ∧
      DagChain.openWithGenesis transferEnv easyParams [] = .ok (.ok (start.node j).chain)) ∧
    start.inFlight = [] ∧ Step transferEnv opposite (fun _ _ _ => True) start mined ∧
    mined.inFlight = announced b false ∧
    ∀ N, ∃ w, Runs transferEnv opposite (fun _ _ _ => True) mined w ∧
      N ≤ (w.relayed false).count (b.id Blake3.hash) := by
  obtain ⟨start, mined, b, c', hstart, hnone, hmine, hfits, hflight, hquiet, hknown₂, haccept,
    hknown'⟩ := mined_start
  refine ⟨start, mined, b, hstart, hnone, hmine _, hflight, fun N => ?_⟩
  obtain ⟨w₁, hruns₁, hflight₁, hnode₁, _⟩ :=
    relay_back (P := fun _ _ _ => True) hfits hflight trivial (hquiet false).1 haccept
  have hknown : ∀ i, b.id transferEnv.blake3 ∈ (w₁.node i).chain.blocks := by
    intro i
    rw [hnode₁]
    cases i with
    | false => exact hknown'
    | true => exact hknown₂
  have hpending : ∀ i, (w₁.node i).pending = [] := by
    intro i
    rw [hnode₁]
    cases i with
    | false => rfl
    | true => exact (hquiet true).1
  obtain ⟨w₂, hruns₂, hflight₂, hnode₂, _⟩ :=
    relay_known hfits hflight₁ (hknown true) (hpending true)
  obtain ⟨w₃, hruns₃, hcount, _⟩ :=
    relays_unbounded hfits (hnode₂ ▸ hknown) (hnode₂ ▸ hpending) hflight₂ N
  exact ⟨w₃, (hruns₁.trans hruns₂).trans hruns₃, hcount⟩

end Example

end TaoDag.Node
