import TaoDag.Dagvm.Extends
import TaoDag.Node.Gossip

namespace TaoDag.Node

open Consensus (DagBlock)
open Database (ReplaceFault)
open Dagvm (DagChain Params)
open Dagvm.DagChain (Accepts Anchored CollisionFree Extends Valid)
open TaoDag.Runtime (Env)

variable {Tx : Type} {env : Env Tx} {c : DagChain Tx} {now₀ : Int} {input : Nat → AcceptInput}

/-- Inputs of the pending loop without file faults, at `now₀` or later. -/
def Faultless (now₀ : Int) (input : Nat → AcceptInput) : Prop :=
  ∀ i, (input i).io = none ∧ now₀ ≤ (input i).now

/-- A node that blocks are delivered to, in the order of the list, while it goes through its
pending loop and serves messages that leave it as it is. -/
inductive Delivers (env : Env Tx) (now₀ : Int) (n : DagNode Tx) : List DagBlock → DagNode Tx → Prop
  | start : Delivers env now₀ n [] n
  | receive {Peer : Type} {l : List DagBlock} {n₁ n₂ : DagNode Tx} {bytes : Bytes} {b : DagBlock}
      {io : Option ReplaceFault} {now : Int} {peer : Peer} {sends : List (Outgoing Peer)}
      (before : Delivers env now₀ n l n₁) (block : DagBlock.fromBytes bytes = .ok b)
      (run : n₁.receive env io now peer (.newBlock bytes) = .ok (n₂, sends)) :
      Delivers env now₀ n (l ++ [b]) n₂
  | serve {Peer : Type} {l : List DagBlock} {n₁ : DagNode Tx} {msg : NetMsg}
      {io : Option ReplaceFault} {now : Int} {peer : Peer} {sends : List (Outgoing Peer)}
      (before : Delivers env now₀ n l n₁)
      (run : n₁.receive env io now peer msg = .ok (n₁, sends)) : Delivers env now₀ n l n₁
  | apply {l : List DagBlock} {n₁ n₂ : DagNode Tx} {input : Nat → AcceptInput}
      {relay : List DagBlock} (before : Delivers env now₀ n l n₁) (faultless : Faultless now₀ input)
      (run : n₁.applyPending env input = .ok (n₂, relay)) : Delivers env now₀ n l n₂

theorem receive_newBlock {Peer : Type} {n n' : DagNode Tx} {bytes : Bytes} {b : DagBlock}
    {io : Option ReplaceFault} {now : Int} {peer : Peer} {sends : List (Outgoing Peer)}
    (hb : DagBlock.fromBytes bytes = .ok b)
    (run : n.receive env io now peer (.newBlock bytes) = .ok (n', sends)) :
    n' = ⟨n.chain, n.pending ++ [b]⟩ := by
  rw [DagNode.receive, hb] at run
  cases run
  rfl

section Loop

variable {total valid : List DagBlock} {s s' : Pass Tx} {b : DagBlock}

/-- What the loop does with any block. -/
structure Handled (env : Env Tx) (c : DagChain Tx) (total : List DagBlock) (s : Pass Tx)
    (b : DagBlock) (s' : Pass Tx) : Prop where
  grows : Extends env total c s'.chain
  blocks : s.chain.blocks ⊆ s'.chain.blocks
  known : ∀ x ∈ s'.chain.blocks, x ∈ s.chain.blocks ∨ x = b.id env.blake3
  still : s'.still = s.still ∨ s'.still = s.still ++ [b]
  progress : s'.progress = false → s.progress = false ∧ s'.chain.blocks = s.chain.blocks

theorem acceptOne_handled (hs : Extends env total c s.chain) (hb : b ∈ total)
    (run : DagNode.acceptOne env input s b = .ok s') : Handled env c total s b s' := by
  obtain ⟨⟨r, chain⟩, haccept, run⟩ := bind_eq_ok.mp run
  have hext : Extends env total c chain := (hs.accept haccept).mono fun b' hb' => by
    rcases List.mem_append.mp hb' with hb' | hb'
    · exact hb'
    · rw [List.mem_singleton.mp hb']
      exact hb
  rcases DagChain.accept_blocks haccept with ⟨rfl, _, hsub, hknown⟩ | ⟨e, rfl, hsame⟩
  · cases run
    exact ⟨hext, hsub, hknown, Or.inl rfl, fun h => nomatch h⟩
  · have hsub : s.chain.blocks ⊆ chain.blocks := hsame ▸ Finset.Subset.refl _
    have hknown : ∀ x ∈ chain.blocks, x ∈ s.chain.blocks ∨ x = b.id env.blake3 :=
      fun x hx => Or.inl (hsame ▸ hx)
    by_cases he : containsText e "orphan" = true
    · simp only [if_pos he] at run
      cases run
      exact ⟨hext, hsub, hknown, Or.inr rfl, fun h => ⟨h, hsame⟩⟩
    · simp only [if_neg he] at run
      cases run
      exact ⟨hext, hsub, hknown, Or.inl rfl, fun h => ⟨h, hsame⟩⟩

/-- A block that the chain `c` has, or takes once its parents are there. -/
def Sound (env : Env Tx) (now₀ : Int) (total : List DagBlock) (c : DagChain Tx) (b : DagBlock) :
    Prop :=
  b.id env.blake3 ∈ c.blocks ∨ Valid env now₀ total c b

/-- What the loop does with a valid block: it is accepted when its parents are there, or else
dropped when the history is pruned, and kept when not. -/
theorem acceptOne_sound (hsound : Sound env now₀ total c b) (hs : Extends env total c s.chain)
    (hfree : CollisionFree env.blake3 total) (hinput : Faultless now₀ input)
    (run : DagNode.acceptOne env input s b = .ok s') :
    (b.id env.blake3 ∈ s'.chain.blocks ∧ s'.still = s.still ∧
      (b.id env.blake3 ∈ s.chain.blocks ∨ ∀ q ∈ b.header.parents, q ∈ s.chain.blocks)) ∨
    (b.id env.blake3 ∉ s.chain.blocks ∧ (∃ q ∈ b.header.parents, q ∉ s.chain.blocks) ∧
      s'.chain = s.chain ∧
      s'.still = if c.historyPruned then s.still else s.still ++ [b]) := by
  obtain ⟨⟨r, chain⟩, haccept, run⟩ := bind_eq_ok.mp run
  obtain ⟨hio, hnow⟩ := hinput s.calls
  rw [hio] at haccept
  have hverdict : (r = .ok () ∧
      (b.id env.blake3 ∈ s.chain.blocks ∨ ∀ q ∈ b.header.parents, q ∈ s.chain.blocks)) ∨
      (b.id env.blake3 ∉ s.chain.blocks ∧ (∃ q ∈ b.header.parents, q ∉ s.chain.blocks) ∧
        chain = s.chain ∧
        r = .error (if c.historyPruned then "parent pruned" else "unknown parent (orphan)")) := by
    rcases hsound with hknown | hvalid
    · have hmem := hs.blocks hknown
      rw [DagChain.accept, if_pos hmem] at haccept
      cases haccept
      exact Or.inl ⟨rfl, Or.inl hmem⟩
    · rw [← hs.historyPruned]
      exact hvalid.verdict hs hfree hnow haccept
  rcases hverdict with ⟨rfl, hcause⟩ | ⟨hid, hmissing, rfl, rfl⟩
  · rcases DagChain.accept_blocks haccept with ⟨_, hmem, _⟩ | ⟨e, he, _⟩
    · cases run
      exact Or.inl ⟨hmem, rfl, hcause⟩
    · cases he
  · refine Or.inr ⟨hid, hmissing, ?_⟩
    cases hpruned : c.historyPruned with
    | true =>
      have htext : ¬containsText "parent pruned" "orphan" = true := by decide
      simp only [hpruned, if_true, if_neg htext] at run
      cases run
      exact ⟨rfl, rfl⟩
    | false =>
      have htext : containsText "unknown parent (orphan)" "orphan" = true := by decide
      simp only [hpruned, Bool.false_eq_true, if_false, if_pos htext] at run
      cases run
      exact ⟨rfl, rfl⟩

theorem acceptOne_progress (hp : s.progress = true)
    (run : DagNode.acceptOne env input s b = .ok s') : s'.progress = true := by
  obtain ⟨⟨r, chain⟩, _, run⟩ := bind_eq_ok.mp run
  cases r with
  | ok u =>
    cases run
    rfl
  | error e =>
    by_cases he : containsText e "orphan" = true
    · simp only [if_pos he] at run
      cases run
      exact hp
    · simp only [if_neg he] at run
      cases run
      exact hp

theorem pass_progress {pending : List DagBlock} (hp : s.progress = true)
    (run : pending.foldlM (DagNode.acceptOne env input) s = .ok s') : s'.progress = true := by
  induction pending generalizing s with
  | nil =>
    cases run
    exact hp
  | cons b pending ih =>
    rw [List.foldlM_cons] at run
    obtain ⟨s₁, hone, run⟩ := bind_eq_ok.mp run
    exact ih (acceptOne_progress hp hone) run

/-- A pass over the buffer leaves no more blocks than it had, and fewer when it accepts one. -/
theorem pass_length {pending : List DagBlock}
    (run : pending.foldlM (DagNode.acceptOne env input) s = .ok s') :
    s'.still.length ≤ s.still.length + pending.length ∧
      (s.progress = false → s'.progress = true →
        s'.still.length < s.still.length + pending.length) := by
  induction pending generalizing s with
  | nil =>
    cases run
    exact ⟨le_refl _, fun h h' => by rw [h] at h'; cases h'⟩
  | cons b pending ih =>
    rw [List.foldlM_cons] at run
    obtain ⟨s₁, hone, run⟩ := bind_eq_ok.mp run
    obtain ⟨hle, hlt⟩ := ih run
    obtain ⟨⟨r, chain⟩, _, hone⟩ := bind_eq_ok.mp hone
    rw [List.length_cons]
    cases r with
    | ok u =>
      cases hone
      dsimp only at hle
      exact ⟨by omega, fun _ _ => by omega⟩
    | error e =>
      by_cases he : containsText e "orphan" = true
      · simp only [if_pos he] at hone
        cases hone
        rw [List.length_append, List.length_singleton] at hle hlt
        exact ⟨by omega, fun h h' => by have := hlt h h'; omega⟩
      · simp only [if_neg he] at hone
        cases hone
        dsimp only at hle hlt
        exact ⟨by omega, fun h h' => by have := hlt h h'; omega⟩

/-- The length of the buffer is bound enough: more fuel changes nothing. -/
theorem pendingLoop_fuel {pending : List DagBlock} {fuel : Nat} (hfuel : pending.length < fuel) :
    DagNode.pendingLoop env input fuel s pending =
      DagNode.pendingLoop env input (fuel + 1) s pending := by
  induction fuel generalizing s pending with
  | zero => exact absurd hfuel (Nat.not_lt_zero _)
  | succ fuel ih =>
    rw [DagNode.pendingLoop, DagNode.pendingLoop]
    cases hpass : pending.foldlM (DagNode.acceptOne env input)
        { s with progress := false, still := [] } with
    | error e => rfl
    | ok s₁ =>
      simp only [bind, Except.bind]
      by_cases hprogress : s₁.progress = true
      · rw [if_pos hprogress, if_pos hprogress]
        have hshort := (pass_length hpass).2 rfl hprogress
        rw [List.length_nil, Nat.zero_add] at hshort
        exact ih (by omega)
      · rw [if_neg hprogress, if_neg hprogress]

section Keeps

variable {pending : List DagBlock}

/-- What a pass over the buffer leaves, when the history is whole. -/
structure Passed (env : Env Tx) (now₀ : Int) (total : List DagBlock) (c : DagChain Tx) (s : Pass Tx)
    (pending : List DagBlock) (s' : Pass Tx) : Prop where
  grows : Extends env total c s'.chain
  blocks : s.chain.blocks ⊆ s'.chain.blocks
  still : ∀ b ∈ s.still, b ∈ s'.still
  from_pending : ∀ b ∈ s'.still, b ∈ s.still ∨ b ∈ pending
  progress : s'.progress = false → s'.chain.blocks = s.chain.blocks
  keeps : ∀ b ∈ pending, Sound env now₀ total c b → b.id env.blake3 ∈ s'.chain.blocks ∨
    (b ∈ s'.still ∧ (s'.progress = false → ∃ q ∈ b.header.parents, q ∉ s'.chain.blocks))

theorem pass_passed (hpruned : c.historyPruned = false) (hfree : CollisionFree env.blake3 total)
    (hinput : Faultless now₀ input) (hs : Extends env total c s.chain)
    (hsub : ∀ b ∈ pending, b ∈ total)
    (run : pending.foldlM (DagNode.acceptOne env input) s = .ok s') :
    Passed env now₀ total c s pending s' := by
  induction pending generalizing s with
  | nil =>
    cases run
    exact ⟨hs, Finset.Subset.refl _, fun b hb => hb, fun b hb => Or.inl hb, fun _ => rfl,
      fun b hb => absurd hb List.not_mem_nil⟩
  | cons b pending ih =>
    rw [List.foldlM_cons] at run
    obtain ⟨s₁, hone, run⟩ := bind_eq_ok.mp run
    have hfirst := acceptOne_handled hs (hsub b List.mem_cons_self) hone
    have hrest := ih hfirst.grows (fun b' hb' => hsub b' (List.mem_cons_of_mem b hb')) run
    have hstill : ∀ b' ∈ s.still, b' ∈ s₁.still := by
      intro b' hb'
      rcases hfirst.still with heq | heq
      · rwa [heq]
      · rw [heq]
        exact List.mem_append_left _ hb'
    have hidle : s'.progress = false → s₁.progress = false := by
      intro h
      refine Bool.eq_false_iff.mpr fun hp => ?_
      rw [pass_progress hp run] at h
      cases h
    refine ⟨hrest.grows, hfirst.blocks.trans hrest.blocks, fun b' hb' => hrest.still b' (hstill b' hb'),
      fun b' hb' => ?_, fun h => (hrest.progress h).trans (hfirst.progress (hidle h)).2,
      fun b' hb' hsound => ?_⟩
    · rcases hrest.from_pending b' hb' with hb' | hb'
      · rcases hfirst.still with heq | heq
        · exact Or.inl (heq ▸ hb')
        · rw [heq] at hb'
          rcases List.mem_append.mp hb' with hb' | hb'
          · exact Or.inl hb'
          · rw [List.mem_singleton.mp hb']
            exact Or.inr List.mem_cons_self
      · exact Or.inr (List.mem_cons_of_mem b hb')
    · rcases List.mem_cons.mp hb' with rfl | hb'
      · rcases acceptOne_sound hsound hs hfree hinput hone with ⟨hid, _⟩ | ⟨_, hmissing, _, heq⟩
        · exact Or.inl (hrest.blocks hid)
        · refine Or.inr ⟨hrest.still b' ?_, fun h => ?_⟩
          · rw [heq, hpruned]
            simp
          · obtain ⟨q, hq, hqs⟩ := hmissing
            rw [hrest.progress h, (hfirst.progress (hidle h)).2]
            exact ⟨q, hq, hqs⟩
      · exact hrest.keeps b' hb' hsound

/-- What the loop leaves, when the history is whole: a valid block stays in the buffer only while
it lacks a parent. -/
theorem pendingLoop_keeps (hpruned : c.historyPruned = false) (hfree : CollisionFree env.blake3 total)
    (hinput : Faultless now₀ input) {fuel : Nat} (hs : Extends env total c s.chain)
    (hsub : ∀ b ∈ pending, b ∈ total)
    (run : DagNode.pendingLoop env input fuel s pending = .ok s') :
    Extends env total c s'.chain ∧ s.chain.blocks ⊆ s'.chain.blocks ∧ (∀ b ∈ s'.still, b ∈ pending) ∧
      ∀ b ∈ pending, Sound env now₀ total c b → b.id env.blake3 ∈ s'.chain.blocks ∨
        (b ∈ s'.still ∧ ∃ q ∈ b.header.parents, q ∉ s'.chain.blocks) := by
  induction fuel generalizing s pending with
  | zero => cases run
  | succ fuel ih =>
    obtain ⟨s₁, hpass, run⟩ := bind_eq_ok.mp run
    have hp := pass_passed (s := { s with progress := false, still := [] }) hpruned hfree hinput hs hsub
      hpass
    have hstill : ∀ b ∈ s₁.still, b ∈ pending := fun b hb =>
      (hp.from_pending b hb).resolve_left List.not_mem_nil
    by_cases hprogress : s₁.progress = true
    · simp only [if_pos hprogress] at run
      obtain ⟨hext, hblocks, hlast, hkeeps⟩ := ih hp.grows (fun b hb => hsub b (hstill b hb)) run
      refine ⟨hext, hp.blocks.trans hblocks, fun b hb => hstill b (hlast b hb), fun b hb hsound => ?_⟩
      rcases hp.keeps b hb hsound with hid | ⟨hb, _⟩
      · exact Or.inl (hblocks hid)
      · exact hkeeps b hb hsound
    · simp only [if_neg hprogress] at run
      have hidle : s₁.progress = false := Bool.eq_false_iff.mpr hprogress
      cases run
      exact ⟨hp.grows, hp.blocks, hstill, fun b hb hsound =>
        (hp.keeps b hb hsound).imp_right fun h => ⟨h.1, h.2 hidle⟩⟩

end Keeps

/-- A block that is delivered before one of its parents, which the chain lacks. -/
def Early (env : Env Tx) (c : DagChain Tx) (total : List DagBlock) (b : DagBlock) : Prop :=
  ∃ pre post, total = pre ++ b :: post ∧ ∃ q ∈ b.header.parents, q ∉ c.blocks ∧ q ∉ ids env pre

/-- Valid blocks among the delivered ones: each is delivered once, and has its parents among
them or in the chain. -/
structure Closed (env : Env Tx) (now₀ : Int) (total valid : List DagBlock) (c : DagChain Tx) :
    Prop where
  free : CollisionFree env.blake3 total
  sound : ∀ b ∈ valid, Sound env now₀ total c b
  delivered : ∀ b ∈ valid, b ∈ total
  once : ∀ b ∈ valid, (ids env total).count (b.id env.blake3) = 1
  parents : ∀ b ∈ valid, b.id env.blake3 ∉ c.blocks → ∀ q ∈ b.header.parents,
    q ∈ c.blocks ∨ q ∈ ids env valid

theorem mem_ids {l : List DagBlock} {x : Hash} : x ∈ ids env l ↔ ∃ b ∈ l, b.id env.blake3 = x :=
  List.mem_map

/-- Where a block stands that is delivered once. -/
theorem once_split {pre post : List DagBlock} (hone : (ids env total).count (b.id env.blake3) = 1)
    (htotal : total = pre ++ b :: post) :
    b.id env.blake3 ∉ ids env pre ∧ b.id env.blake3 ∉ ids env post := by
  rw [htotal, ids, List.map_append, List.map_cons, List.count_append, List.count_cons_self] at hone
  constructor
  · intro hmem
    have hpos := List.count_pos_iff.mpr hmem
    rw [ids] at hpos
    omega
  · intro hmem
    have hpos := List.count_pos_iff.mpr hmem
    rw [ids] at hpos
    omega

theorem once_unique (hone : (ids env total).count (b.id env.blake3) = 1) (hb : b ∈ total)
    {b' : DagBlock} (hb' : b' ∈ total) (hid : b'.id env.blake3 = b.id env.blake3) : b' = b := by
  obtain ⟨pre, post, htotal⟩ := List.append_of_mem hb
  obtain ⟨hpre, hpost⟩ := once_split hone htotal
  rw [htotal] at hb'
  rcases List.mem_append.mp hb' with hb' | hb'
  · exact absurd (mem_ids.mpr ⟨b', hb', hid⟩) hpre
  · rcases List.mem_cons.mp hb' with heq | hb'
    · exact heq
    · exact absurd (mem_ids.mpr ⟨b', hb', hid⟩) hpost

theorem Closed.not_before (h : Closed env now₀ total valid c) (hb : b ∈ valid)
    {pre post : List DagBlock} (htotal : total = pre ++ b :: post) : b.id env.blake3 ∉ ids env pre :=
  (once_split (h.once b hb) htotal).1

theorem Closed.unique (h : Closed env now₀ total valid c) (hb : b ∈ valid) {b' : DagBlock}
    (hb' : b' ∈ total) (hid : b'.id env.blake3 = b.id env.blake3) : b' = b :=
  once_unique (h.once b hb) (h.delivered b hb) hb' hid

/-- The blocks before a given one that is delivered once. -/
theorem Closed.before_eq (h : Closed env now₀ total valid c) (hb : b ∈ valid)
    {pre pre' post post' : List DagBlock} (htotal : total = pre ++ b :: post)
    (htotal' : total = pre' ++ b :: post') : pre = pre' := by
  have hwhile : ∀ {pre post : List DagBlock}, total = pre ++ b :: post →
      total.takeWhile (fun b' => b'.id env.blake3 ≠ b.id env.blake3) = pre := by
    intro pre post htotal
    have hnot := h.not_before hb htotal
    rw [htotal, List.takeWhile_append_of_pos, List.takeWhile_cons_of_neg (by simp), List.append_nil]
    intro b' hb'
    exact decide_eq_true fun hid => hnot (mem_ids.mpr ⟨b', hb', hid⟩)
  exact (hwhile htotal).symm.trans (hwhile htotal')

/-- A chain of pruned history that the blocks of `done` have been offered to. -/
structure Settled (env : Env Tx) (total valid : List DagBlock) (c d : DagChain Tx)
    (done : List DagBlock) : Prop where
  grows : Extends env total c d
  known : ∀ x ∈ d.blocks, x ∈ c.blocks ∨ x ∈ ids env done
  late : ∀ b ∈ valid, b ∈ done → b.id env.blake3 ∈ d.blocks → b.id env.blake3 ∈ c.blocks ∨
    ¬Early env c total b
  taken : (∀ b ∈ valid, b.id env.blake3 ∉ c.blocks → ¬Early env c total b) →
    ∀ b ∈ valid, b ∈ done → b.id env.blake3 ∈ d.blocks

section Settled

variable {done post : List DagBlock}

/-- A block that is offered again changes nothing for the valid ones. -/
theorem Settled.again (hset : Settled env total valid c s.chain done)
    (hclosed : Closed env now₀ total valid c) (hb : b ∈ total) (hdone : b ∈ done) (hbv : b ∉ valid)
    (run : DagNode.acceptOne env input s b = .ok s') :
    Settled env total valid c s'.chain done := by
  have hstep := acceptOne_handled hset.grows hb run
  refine ⟨hstep.grows, fun x hx => ?_, fun v hv hvd hid => ?_, fun hnone v hv hvd =>
    hstep.blocks (hset.taken hnone v hv hvd)⟩
  · rcases hstep.known x hx with hx | rfl
    · exact hset.known x hx
    · exact Or.inr (mem_ids.mpr ⟨b, hdone, rfl⟩)
  · rcases hstep.known _ hid with hid | hid
    · exact hset.late v hv hvd hid
    · exact absurd (hclosed.unique hv hb hid.symm ▸ hv) hbv

/-- The next block of the delivery order. -/
theorem Settled.next (hset : Settled env total valid c s.chain done) (hpruned : c.historyPruned = true)
    (hclosed : Closed env now₀ total valid c) (hinput : Faultless now₀ input)
    (htotal : total = done ++ b :: post) (run : DagNode.acceptOne env input s b = .ok s') :
    Settled env total valid c s'.chain (done ++ [b]) ∧ (b ∈ valid → s'.still = s.still) := by
  have hb : b ∈ total := by
    rw [htotal]
    simp
  have hstep := acceptOne_handled hset.grows hb run
  have hcases := fun hv : b ∈ valid =>
    acceptOne_sound (hclosed.sound b hv) hset.grows hclosed.free hinput run
  have hids : ∀ {x}, x ∈ ids env done → x ∈ ids env (done ++ [b]) := by
    intro x hx
    obtain ⟨b', hb', hid⟩ := mem_ids.mp hx
    exact mem_ids.mpr ⟨b', List.mem_append_left _ hb', hid⟩
  refine ⟨⟨hstep.grows, fun x hx => ?_, fun v hv hvd hid => ?_, fun hnone v hv hvd => ?_⟩,
    fun hv => ?_⟩
  · rcases hstep.known x hx with hx | rfl
    · exact (hset.known x hx).imp_right hids
    · exact Or.inr (mem_ids.mpr ⟨b, by simp, rfl⟩)
  · -- the block is known from before, or has just been taken with its parents in the chain
    by_cases hold : v.id env.blake3 ∈ s.chain.blocks
    · rcases List.mem_append.mp hvd with hvd | hvd
      · exact hset.late v hv hvd hold
      · rw [List.mem_singleton.mp hvd] at hv hold ⊢
        exact Or.inl ((hset.known _ hold).resolve_right (hclosed.not_before hv htotal))
    · have hvb : b = v := hclosed.unique hv hb ((hstep.known _ hid).resolve_left hold).symm
      subst hvb
      refine Or.inr fun hearly => ?_
      obtain ⟨pre, post', htotal', q, hq, hqc, hqpre⟩ := hearly
      rw [← hclosed.before_eq hv htotal htotal'] at hqpre
      rcases hcases hv with ⟨_, _, hcause⟩ | ⟨_, _, hsame, _⟩
      · exact ((hset.known q (hcause.resolve_left hold q hq)).elim hqc hqpre).elim
      · exact hold (hsame ▸ hid)
  · rcases List.mem_append.mp hvd with hvd | hvd
    · exact hstep.blocks (hset.taken hnone v hv hvd)
    · rw [List.mem_singleton.mp hvd] at hv ⊢
      rcases hcases hv with ⟨hid, _⟩ | ⟨hid, ⟨q, hq, hqs⟩, _⟩
      · exact hid
      · exfalso
        have hbc : b.id env.blake3 ∉ c.blocks := fun h => hid (hset.grows.blocks h)
        have hqc : q ∉ c.blocks := fun h => hqs (hset.grows.blocks h)
        have hqdone : q ∈ ids env done := by
          by_contra hnot
          exact hnone b hv hbc ⟨done, post, htotal, q, hq, hqc, hnot⟩
        obtain ⟨p, hp, rfl⟩ := mem_ids.mp ((hclosed.parents b hv hbc q hq).resolve_left hqc)
        obtain ⟨p', hp', hid'⟩ := mem_ids.mp hqdone
        have hpt : p' ∈ total := by
          rw [htotal]
          exact List.mem_append_left _ hp'
        rw [hclosed.unique hp hpt hid'] at hp'
        exact hqs (hset.taken hnone p hp hp')
  · rcases hcases hv with ⟨_, hstill, _⟩ | ⟨_, _, _, hstill⟩
    · exact hstill
    · rw [hstill, if_pos hpruned]

/-- The blocks that stay in the buffer of a pruned node: none of the valid ones. -/
def Leftover (valid done still : List DagBlock) : Prop := ∀ b ∈ still, b ∈ done ∧ b ∉ valid

theorem pass_again {w : List DagBlock} (hset : Settled env total valid c s.chain done)
    (hclosed : Closed env now₀ total valid c) (hsub : ∀ b ∈ done, b ∈ total)
    (hw : Leftover valid done w) (hstill : Leftover valid done s.still)
    (run : w.foldlM (DagNode.acceptOne env input) s = .ok s') :
    Settled env total valid c s'.chain done ∧ Leftover valid done s'.still := by
  induction w generalizing s with
  | nil =>
    cases run
    exact ⟨hset, hstill⟩
  | cons b w ih =>
    rw [List.foldlM_cons] at run
    obtain ⟨s₁, hone, run⟩ := bind_eq_ok.mp run
    obtain ⟨hdone, hbv⟩ := hw b List.mem_cons_self
    have hstep := acceptOne_handled hset.grows (hsub b hdone) hone
    refine ih (hset.again hclosed (hsub b hdone) hdone hbv hone)
      (fun b' hb' => hw b' (List.mem_cons_of_mem b hb')) (fun b' hb' => ?_) run
    rcases hstep.still with heq | heq
    · exact hstill b' (heq ▸ hb')
    · rw [heq] at hb'
      rcases List.mem_append.mp hb' with hb' | hb'
      · exact hstill b' hb'
      · rw [List.mem_singleton.mp hb']
        exact ⟨hdone, hbv⟩

theorem pass_next {u : List DagBlock} (hset : Settled env total valid c s.chain done)
    (hpruned : c.historyPruned = true) (hclosed : Closed env now₀ total valid c)
    (hinput : Faultless now₀ input) (htotal : total = done ++ u ++ post)
    (hstill : Leftover valid done s.still)
    (run : u.foldlM (DagNode.acceptOne env input) s = .ok s') :
    Settled env total valid c s'.chain (done ++ u) ∧ Leftover valid (done ++ u) s'.still := by
  induction u generalizing s done with
  | nil =>
    cases run
    rw [List.append_nil]
    exact ⟨hset, hstill⟩
  | cons b u ih =>
    rw [List.foldlM_cons] at run
    obtain ⟨s₁, hone, run⟩ := bind_eq_ok.mp run
    have hpos : total = done ++ b :: (u ++ post) := by
      rw [htotal, List.append_assoc, List.cons_append]
    have hb : b ∈ total := by
      rw [hpos]
      simp
    obtain ⟨hset₁, hkept⟩ := hset.next hpruned hclosed hinput hpos hone
    have hstill₁ : Leftover valid (done ++ [b]) s₁.still := by
      intro b' hb'
      rcases (acceptOne_handled hset.grows hb hone).still with heq | heq
      · rw [heq] at hb'
        exact ⟨List.mem_append_left _ (hstill b' hb').1, (hstill b' hb').2⟩
      · by_cases hbv : b ∈ valid
        · rw [hkept hbv] at hb'
          exact ⟨List.mem_append_left _ (hstill b' hb').1, (hstill b' hb').2⟩
        · rw [heq] at hb'
          rcases List.mem_append.mp hb' with hb' | hb'
          · exact ⟨List.mem_append_left _ (hstill b' hb').1, (hstill b' hb').2⟩
          · rw [List.mem_singleton.mp hb']
            exact ⟨by simp, hbv⟩
    have hrest := ih hset₁ (by rw [htotal]; simp) hstill₁ run
    rwa [List.append_assoc, List.singleton_append] at hrest

theorem pendingLoop_settled {fuel : Nat} {w u : List DagBlock} (hpruned : c.historyPruned = true)
    (hclosed : Closed env now₀ total valid c) (hinput : Faultless now₀ input)
    (hset : Settled env total valid c s.chain done) (htotal : total = done ++ u ++ post)
    (hw : Leftover valid done w) (run : DagNode.pendingLoop env input fuel s (w ++ u) = .ok s') :
    Settled env total valid c s'.chain (done ++ u) ∧ Leftover valid (done ++ u) s'.still := by
  induction fuel generalizing s w u done with
  | zero => cases run
  | succ fuel ih =>
    obtain ⟨s₂, hpass, run⟩ := bind_eq_ok.mp run
    rw [List.foldlM_append] at hpass
    obtain ⟨s₁, hold, hnew⟩ := bind_eq_ok.mp hpass
    have hsub : ∀ b ∈ done, b ∈ total := by
      intro b hb
      rw [htotal]
      exact List.mem_append_left _ (List.mem_append_left _ hb)
    obtain ⟨hset₁, hstill₁⟩ := pass_again (s := { s with progress := false, still := [] }) hset
      hclosed hsub hw (fun b hb => absurd hb List.not_mem_nil) hold
    obtain ⟨hset₂, hstill₂⟩ := pass_next hset₁ hpruned hclosed hinput htotal hstill₁ hnew
    by_cases hprogress : s₂.progress = true
    · simp only [if_pos hprogress] at run
      have hrest := ih (w := s₂.still) (u := []) hset₂ (by rw [htotal, List.append_nil]) hstill₂
        (by rwa [List.append_nil])
      rwa [List.append_nil] at hrest
    · simp only [if_neg hprogress] at run
      cases run
      exact ⟨hset₂, hstill₂⟩

end Settled

end Loop

section Deliveries

variable {total valid delivered : List DagBlock} {n n' : DagNode Tx} {c' d : DagChain Tx}

/-- The blocks that a chain can accept in some order. -/
theorem closed_of_accepts (hanchored : Anchored env c) (hvalid : Accepts env c valid c')
    (hnow : ∀ b ∈ valid, DagChain.validateBlockIntrinsic env now₀ b = .ok ())
    (honce : ∀ b ∈ valid, b ∈ total ∧ (ids env total).count (b.id env.blake3) = 1)
    (hfree : CollisionFree env.blake3 total) : Closed env now₀ total valid c := by
  obtain ⟨_, hv⟩ := hvalid.valid hanchored hnow
  have hself : ∀ b ∈ valid, b.id env.blake3 ∉ c.blocks → Valid env now₀ valid c b := by
    intro b hb hnew
    obtain ⟨b', hb', hid, hv'⟩ := hv b hb hnew
    obtain ⟨hbt, hcount⟩ := honce b hb
    rwa [once_unique hcount hbt (honce b' hb').1 hid] at hv'
  refine ⟨hfree, fun b hb => ?_, fun b hb => (honce b hb).1, fun b hb => (honce b hb).2,
    fun b hb hnew q hq => ?_⟩
  · by_cases hid : b.id env.blake3 ∈ c.blocks
    · exact Or.inl hid
    · exact Or.inr ((hself b hb hid).mono fun b' hb' => (honce b' hb').1)
  · obtain ⟨_, e, he, hpass⟩ := (hself b hb hnew).context
    rw [mem_ids]
    exact he.known q (hpass.parents.2.2 q hq)

/-- A chain on which only blocks that lack a parent are missing holds them all. -/
theorem accepts_subset (hvalid : Accepts env c valid c') (hsub : c.blocks ⊆ d.blocks)
    (hlack : ∀ b ∈ valid, b.id env.blake3 ∈ d.blocks ∨ ∃ q ∈ b.header.parents, q ∉ d.blocks) :
    c'.blocks ⊆ d.blocks ∧ ∀ b ∈ valid, b.id env.blake3 ∈ c'.blocks := by
  induction hvalid with
  | nil => exact ⟨hsub, fun b hb => absurd hb List.not_mem_nil⟩
  | @snoc blocks e c' block io now before run ih =>
    obtain ⟨he, hids⟩ := ih fun b hb => hlack b (List.mem_append_left _ hb)
    rcases DagChain.accept_blocks run with ⟨_, hmem, hold, hnew⟩ | ⟨e', herr, _⟩
    · refine ⟨fun x hx => ?_, fun b hb => ?_⟩
      · rcases hnew x hx with hx | rfl
        · exact he hx
        · rcases DagChain.accept_ok_cases run with ⟨hknown, _⟩ | ⟨hpass, _⟩
          · exact he hknown
          · refine (hlack block (by simp)).resolve_right fun hmissing => ?_
            obtain ⟨q, hq, hqd⟩ := hmissing
            exact hqd (he (hpass.parents.2.2 q hq))
      · rcases List.mem_append.mp hb with hb | hb
        · exact hold (hids b hb)
        · rw [List.mem_singleton.mp hb]
          exact hmem
    · cases herr

/-- A node with a whole history keeps every valid block until it accepts it. -/
theorem Delivers.keeps (hrun : Delivers env now₀ n delivered n') (hanchored : Anchored env n.chain)
    (hpruned : n.chain.historyPruned = false) (hfree : CollisionFree env.blake3 total)
    (hsub : ∀ b ∈ n.pending ++ delivered, b ∈ total) :
    Extends env total n.chain n'.chain ∧ (∀ b ∈ n'.pending, b ∈ total) ∧
      ∀ b ∈ n.pending ++ delivered, Sound env now₀ total n.chain b →
        b.id env.blake3 ∈ n'.chain.blocks ∨ b ∈ n'.pending := by
  induction hrun with
  | start =>
    rw [List.append_nil] at hsub ⊢
    exact ⟨hanchored.extends.mono fun b hb => absurd hb List.not_mem_nil, hsub,
      fun b hb _ => Or.inr hb⟩
  | @receive Peer l n₁ n₂ bytes block io now peer sends before hblock run ih =>
    rw [← List.append_assoc] at hsub ⊢
    obtain ⟨hext, hpending, hkeeps⟩ := ih fun b hb => hsub b (List.mem_append_left _ hb)
    rw [receive_newBlock hblock run]
    refine ⟨hext, fun b hb => ?_, fun b hb hsound => ?_⟩
    · rcases List.mem_append.mp hb with hb | hb
      · exact hpending b hb
      · exact hsub b (List.mem_append_right _ hb)
    · rcases List.mem_append.mp hb with hb | hb
      · exact (hkeeps b hb hsound).imp_right fun h => List.mem_append_left _ h
      · exact Or.inr (List.mem_append_right _ hb)
  | serve _ _ ih => exact ih hsub
  | @apply l n₁ n₂ input relay before hinput run ih =>
    obtain ⟨hext, hpending, hkeeps⟩ := ih hsub
    obtain ⟨s, hloop, run⟩ := bind_eq_ok.mp run
    cases run
    obtain ⟨hext', hblocks, hstill, hkeeps'⟩ := pendingLoop_keeps hpruned hfree hinput hext hpending hloop
    refine ⟨hext', fun b hb => hpending b (hstill b hb), fun b hb hsound => ?_⟩
    rcases hkeeps b hb hsound with hid | hb
    · exact Or.inl (hblocks hid)
    · exact (hkeeps' b hb hsound).imp_right And.left

/-- A node with a pruned history settles each valid block the first time it comes to it. -/
theorem Delivers.settled (hrun : Delivers env now₀ n delivered n') (hanchored : Anchored env n.chain)
    (hpruned : n.chain.historyPruned = true) (hclosed : Closed env now₀ total valid n.chain)
    {post : List DagBlock} (htotal : total = n.pending ++ delivered ++ post) :
    ∃ done w u, n'.pending = w ++ u ∧ n.pending ++ delivered = done ++ u ∧ Leftover valid done w ∧
      Settled env total valid n.chain n'.chain done := by
  induction hrun generalizing post with
  | start =>
    refine ⟨[], [], n.pending, rfl, List.append_nil _, fun b hb => absurd hb List.not_mem_nil,
      hanchored.extends.mono fun b hb => absurd hb List.not_mem_nil, fun x hx => Or.inl hx,
      fun b _ hb => absurd hb List.not_mem_nil, fun _ b _ hb => absurd hb List.not_mem_nil⟩
  | @receive Peer l n₁ n₂ bytes block io now peer sends before hblock run ih =>
    have hearlier : total = n.pending ++ l ++ block :: post := by
      rw [htotal]
      simp
    obtain ⟨done, w, u, hpending, harrived, hw, hset⟩ := ih hearlier
    rw [receive_newBlock hblock run]
    refine ⟨done, w, u ++ [block], ?_, ?_, hw, hset⟩
    · simp [hpending]
    · rw [← List.append_assoc, harrived, List.append_assoc]
  | serve _ _ ih => exact ih htotal
  | @apply l n₁ n₂ input relay before hinput run ih =>
    obtain ⟨done, w, u, hpending, harrived, hw, hset⟩ := ih htotal
    obtain ⟨s, hloop, run⟩ := bind_eq_ok.mp run
    cases run
    rw [hpending] at hloop
    have hpost : total = done ++ u ++ post := by rw [htotal, harrived]
    obtain ⟨hset', hstill⟩ := pendingLoop_settled hpruned hclosed hinput hset hpost hw hloop
    exact ⟨done ++ u, s.still, [], (List.append_nil _).symm, by rw [harrived, List.append_nil],
      hstill, hset'⟩

/-- Blocks that can be accepted in some order, each delivered once among others in any order, are
all accepted by the end of a pending loop if and only if the node still has its whole history, or
none of them comes before one of its parents. -/
theorem delivery_order_iff {p : Params} {file : Bytes} {c₀ c₁ : DagChain Tx}
    {pending : List DagBlock} {input : Nat → AcceptInput} {relay : List DagBlock}
    (hopen : DagChain.openWithGenesis env p file = .ok (.ok c₀))
    (hreach : DagChain.Reaches env (fun _ _ => True) c₀ c)
    (hvalid : Accepts env c valid c₁)
    (hnow : ∀ b ∈ valid, DagChain.validateBlockIntrinsic env now₀ b = .ok ())
    (honce : ∀ b ∈ valid, b ∈ pending ++ delivered ∧
      (ids env (pending ++ delivered)).count (b.id env.blake3) = 1)
    (hfree : CollisionFree env.blake3 (pending ++ delivered))
    (hrun : Delivers env now₀ ⟨c, pending⟩ delivered n) (hinput : Faultless now₀ input)
    (hloop : n.applyPending env input = .ok (n', relay)) :
    (∀ b ∈ valid, b.id env.blake3 ∈ n'.chain.blocks) ↔
      c.historyPruned = false ∨
        ∀ b ∈ valid, b.id env.blake3 ∉ c.blocks → ¬Early env c (pending ++ delivered) b := by
  have hanchored : Anchored env c := DagChain.anchored_of_reaches hopen hreach
  have hclosed := closed_of_accepts hanchored hvalid hnow honce hfree
  cases hpruned : c.historyPruned with
  | false =>
    refine iff_of_true ?_ (Or.inl rfl)
    obtain ⟨hext, hpending, hkeeps⟩ := hrun.keeps hanchored hpruned hfree fun b hb => hb
    obtain ⟨s, hpass, hend⟩ := bind_eq_ok.mp hloop
    cases hend
    obtain ⟨hext', hblocks, _, hlack⟩ := pendingLoop_keeps hpruned hfree hinput hext hpending hpass
    have hall : ∀ b ∈ valid, b.id env.blake3 ∈ s.chain.blocks ∨
        ∃ q ∈ b.header.parents, q ∉ s.chain.blocks := by
      intro b hb
      have hsound := hclosed.sound b hb
      rcases hkeeps b (hclosed.delivered b hb) hsound with hid | hbuf
      · exact Or.inl (hblocks hid)
      · exact (hlack b hbuf hsound).imp_right And.right
    obtain ⟨hsub, hids⟩ := accepts_subset hvalid hext'.blocks hall
    exact fun b hb => hsub (hids b hb)
  | true =>
    obtain ⟨done, w, u, hbuffer, harrived, hw, hset⟩ :=
      hrun.settled hanchored hpruned hclosed (List.append_nil _).symm
    obtain ⟨s, hpass, hend⟩ := bind_eq_ok.mp hloop
    cases hend
    rw [hbuffer] at hpass
    have hpost : pending ++ delivered = done ++ u ++ [] := by
      rw [List.append_nil]
      exact harrived
    obtain ⟨hset', _⟩ := pendingLoop_settled hpruned hclosed hinput hset hpost hw hpass
    rw [← harrived] at hset'
    constructor
    · intro hall
      refine Or.inr fun b hb hnew => ?_
      exact (hset'.late b hb (hclosed.delivered b hb) (hall b hb)).resolve_left hnew
    · rintro (hwhole | hnone)
      · cases hwhole
      · exact fun b hb => hset'.taken hnone b hb (hclosed.delivered b hb)

end Deliveries

section Example

open Dagvm (easyParams easyGenesis easyBlock soundSnapshot)
open TaoDag.Runtime (Transaction transferEnv)

/-- Blocks that fit their encoding can be delivered. -/
theorem delivers_buffered {n : DagNode Tx} {l : List DagBlock} (hl : ∀ b ∈ l, b.Fits) :
    Delivers env now₀ n l ⟨n.chain, n.pending ++ l⟩ := by
  induction l using List.reverseRecOn with
  | nil =>
    rw [List.append_nil]
    exact .start
  | append_singleton l b ih =>
    have hb : DagBlock.fromBytes (DagBlock.codec.encode b) = .ok b :=
      DagBlock.fromBytes_encode (hl b (by simp))
    have hreceive : DagNode.receive env none 0 ⟨n.chain, n.pending ++ l⟩ ()
        (.newBlock (DagBlock.codec.encode b)) = .ok (⟨n.chain, n.pending ++ (l ++ [b])⟩, []) := by
      rw [DagNode.receive, hb, ← List.append_assoc]
      rfl
    exact .receive (ih fun b' hb' => hl b' (List.mem_append_left _ hb')) hb hreceive

/-- The origin of `soundSnapshot`, a child of it, and a child of that one. -/
def snapshotOrigin : Hash := 0x4f4ab2d3529ffeba48b0c06601bf4e3301b07386abd3ed8f5154b5b952d34095

def originChild : DagBlock :=
  easyBlock Blake3.hash [snapshotOrigin] [snapshotOrigin, snapshotOrigin, easyGenesis, easyGenesis]
    1750000012 []

def originGrandchild : DagBlock :=
  let parent := 0x9fc61eb14c4f4c8d3b6407048565309f20d4ffa1c785f3668479b0124af6a6c0
  easyBlock Blake3.hash [parent] [parent, snapshotOrigin, easyGenesis, easyGenesis] 1750000013 []

/-- A node that has bootstrapped from a snapshot gets two valid blocks, the child first. -/
private theorem early_start : ∃ (c₀ c c₁ d : DagChain Transaction),
    DagChain.openWithGenesis transferEnv easyParams [] = .ok (.ok c₀) ∧
    DagChain.Reaches transferEnv (fun _ _ => True) c₀ c ∧
    Accepts transferEnv c [originChild, originGrandchild] c₁ ∧
    (∀ b ∈ [originChild, originGrandchild],
      DagChain.validateBlockIntrinsic transferEnv 1750000020 b = .ok () ∧ b.Fits) ∧
    originChild.id transferEnv.blake3 ≠ originGrandchild.id transferEnv.blake3 ∧
    DagNode.applyPending transferEnv (fun _ => ⟨none, 1750000020⟩)
      ⟨c, [originGrandchild, originChild]⟩ = .ok (⟨d, []⟩, [originChild]) ∧
    originGrandchild.id transferEnv.blake3 ∉ d.blocks := by
  have hrun : returnsWith (DagChain.openWithGenesis transferEnv easyParams []) (fun o =>
      returnsWith o fun c₀ =>
        returnsWith (c₀.importSnapshot transferEnv none 1750000000 soundSnapshot) fun p =>
          returnsWith (p.2.accept transferEnv none 1750000020 originChild) (fun q =>
            returnsWith q.1 (fun _ => true) &&
              returnsWith (q.2.accept transferEnv none 1750000020 originGrandchild) fun q' =>
                returnsWith q'.1 fun _ => true) &&
          returnsWith (DagNode.applyPending transferEnv (fun _ => ⟨none, 1750000020⟩)
            ⟨p.2, [originGrandchild, originChild]⟩) fun q =>
              decide (q.1.pending = []) && decide (q.2 = [originChild]) &&
                decide (originGrandchild.id Blake3.hash ∉ q.1.chain.blocks)) = true := by
    decide +kernel
  have hjudged : ∀ b ∈ [originChild, originGrandchild],
      returnsWith (DagChain.validateBlockIntrinsic transferEnv 1750000020 b) (fun _ => true) = true := by
    decide +kernel
  have hfits : ∀ b ∈ [originChild, originGrandchild], b.Fits := by
    intro b hb
    simp only [List.mem_cons, List.not_mem_nil, or_false] at hb
    rcases hb with rfl | rfl
    · exact ⟨⟨by decide, by decide⟩, by decide, fun t ht => (by cases ht)⟩
    · exact ⟨⟨by decide, by decide⟩, by decide, fun t ht => (by cases ht)⟩
  have hne : originChild.id transferEnv.blake3 ≠ originGrandchild.id transferEnv.blake3 := by
    decide +kernel
  generalize originChild = b, originGrandchild = b', soundSnapshot = snapshot at *
  simp only [returnsWith_iff, Bool.and_eq_true, decide_eq_true_eq] at hrun
  obtain ⟨_, hopen, c₀, rfl, ⟨r, c⟩, himport, ⟨⟨_, d₁⟩, hfirst, ⟨_, rfl, _⟩, ⟨_, c₁⟩, hsecond, _, rfl, _⟩,
    ⟨⟨d, pending⟩, relay⟩, hloop, ⟨rfl, rfl⟩, hdropped⟩ := hrun
  have hreach : DagChain.Reaches transferEnv (fun _ _ => True) c₀ c := by
    refine .single ⟨.importSnapshot none 1750000000 snapshot, trivial, ?_⟩
    rw [DagChain.step, himport]
    rfl
  refine ⟨c₀, c, c₁, d, hopen, hreach, .snoc (.snoc .nil hfirst) hsecond, fun x hx => ?_, hne,
    hloop, hdropped⟩
  obtain ⟨_, hintrinsic, _⟩ := returnsWith_iff.mp (hjudged x hx)
  exact ⟨hintrinsic, hfits x hx⟩

/-- The blocks of the example, whatever they are: distinct, valid, and delivered child first. -/
private theorem early_deliveries {b b' : DagBlock} {c : DagChain Transaction}
    (hvalid : ∀ x ∈ [b, b'],
      DagChain.validateBlockIntrinsic transferEnv 1750000020 x = .ok () ∧ x.Fits)
    (hne : b.id transferEnv.blake3 ≠ b'.id transferEnv.blake3) :
    CollisionFree transferEnv.blake3 [b', b] ∧
      (∀ x ∈ [b, b'], x ∈ [b', b] ∧
        (ids transferEnv [b', b]).count (x.id transferEnv.blake3) = 1) ∧
      Delivers transferEnv 1750000020 ⟨c, []⟩ [b', b] ⟨c, [b', b]⟩ := by
  refine ⟨fun x hx y hy hid => ?_, fun x hx => ⟨?_, ?_⟩, ?_⟩
  · simp only [List.mem_cons, List.not_mem_nil, or_false] at hx hy
    rcases hx with rfl | rfl
    · rcases hy with rfl | rfl
      · rfl
      · exact absurd hid.symm hne
    · rcases hy with rfl | rfl
      · exact absurd hid hne
      · rfl
  · simp only [List.mem_cons, List.not_mem_nil, or_false] at hx ⊢
    exact hx.symm
  · simp only [List.mem_cons, List.not_mem_nil, or_false] at hx
    rcases hx with rfl | rfl
    · simp [ids, hne.symm]
    · simp [ids, hne]
  · exact delivers_buffered fun x hx => (hvalid x (by simpa [or_comm] using hx)).2

private theorem early_faultless : Faultless 1750000020 fun _ => ⟨none, 1750000020⟩ :=
  fun _ => ⟨rfl, le_refl _⟩

/-- On a node that has bootstrapped from a snapshot, of two valid blocks of which the child comes
first, the child is dropped: it is neither accepted nor kept. -/
theorem early_block_dropped : ∃ (c₀ c c₁ : DagChain Transaction) (b b' : DagBlock)
    (n n' : DagNode Transaction) (input : Nat → AcceptInput) (relay : List DagBlock),
    DagChain.openWithGenesis transferEnv easyParams [] = .ok (.ok c₀) ∧
    DagChain.Reaches transferEnv (fun _ _ => True) c₀ c ∧
    Accepts transferEnv c [b, b'] c₁ ∧
    (∀ x ∈ [b, b'], DagChain.validateBlockIntrinsic transferEnv 1750000020 x = .ok ()) ∧
    (∀ x ∈ [b, b'], x ∈ [b', b] ∧
      (ids transferEnv [b', b]).count (x.id transferEnv.blake3) = 1) ∧
    CollisionFree transferEnv.blake3 [b', b] ∧
    Delivers transferEnv 1750000020 ⟨c, []⟩ [b', b] n ∧ Faultless 1750000020 input ∧
    n.applyPending transferEnv input = .ok (n', relay) ∧
    b'.id transferEnv.blake3 ∉ n'.chain.blocks ∧ n'.pending = [] := by
  obtain ⟨c₀, c, c₁, d, hopen, hreach, haccepts, hvalid, hne, hloop, hdropped⟩ := early_start
  obtain ⟨hfree, honce, hdelivers⟩ := early_deliveries (c := c) hvalid hne
  exact ⟨c₀, c, c₁, originChild, originGrandchild, _, _, _, _, hopen, hreach, haccepts,
    fun x hx => (hvalid x hx).1, honce, hfree, hdelivers, early_faultless, hloop, hdropped, rfl⟩

theorem delivery_order_iff_early : ∃ (c c₁ : DagChain Transaction) (b b' : DagBlock)
    (n n' : DagNode Transaction), Accepts transferEnv c [b, b'] c₁ ∧
    Delivers transferEnv 1750000020 ⟨c, []⟩ [b', b] n ∧
    ((∀ x ∈ [b, b'], x.id transferEnv.blake3 ∈ n'.chain.blocks) ↔
      c.historyPruned = false ∨ ∀ x ∈ [b, b'], x.id transferEnv.blake3 ∉ c.blocks →
        ¬Early transferEnv c ([] ++ [b', b]) x) := by
  obtain ⟨c₀, c, c₁, d, hopen, hreach, haccepts, hvalid, hne, hloop, _⟩ := early_start
  obtain ⟨hfree, honce, hdelivers⟩ := early_deliveries (c := c) hvalid hne
  exact ⟨c, c₁, originChild, originGrandchild, _, _, haccepts, hdelivers,
    delivery_order_iff hopen hreach haccepts (fun x hx => (hvalid x hx).1) honce hfree hdelivers
      early_faultless hloop⟩

end Example

end TaoDag.Node
