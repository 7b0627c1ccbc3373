import TaoDag.Node.LinearRun

namespace TaoDag.Node

open Consensus (Pubkey BlockHeader BlockStatus ChainState)
open Consensus.ChainState (Extends Run)

variable {blake3 : Bytes → Hash} {c : ChainState} {miner : Pubkey} {now : BitVec 64}
  {transactions : List Bytes} {root : Bytes32} {candidate header : BlockHeader}

/-- A candidate has the height and the target that a block on the tip must have. -/
structure OnTip (c : ChainState) (header : BlockHeader) : Prop where
  prevHash : header.prevHash = c.tip
  height : ∃ tip, c.blocks.lookup c.tip = some tip ∧
    header.height.toNat = tip.header.height.toNat + 1
  target : c.targetAfter c.tip = .ok header.target

theorem buildCandidate_onTip
    (run : c.buildCandidate blake3 miner now transactions = .ok candidate) :
    OnTip c candidate ∧ candidate.timestamp = now := by
  obtain ⟨tipHeader, htip, run⟩ := bind_eq_ok.mp run
  obtain ⟨tip, hlookup, htip⟩ := bind_eq_ok.mp htip
  cases htip
  obtain ⟨height, hadd, run⟩ := bind_eq_ok.mp run
  obtain ⟨target, htarget, run⟩ := bind_eq_ok.mp run
  cases run
  obtain ⟨rfl, hle⟩ := (addU64_spec (C := False) False.elim).post hadd
  refine ⟨⟨rfl, ⟨tip, expect_eq_ok.mp hlookup, ?_⟩, htarget⟩, rfl⟩
  rw [BitVec.toNat_ofNat, Nat.mod_eq_of_lt]
  rw [u64Max] at hle
  omega

/-- Grinding keeps a header on the tip. -/
theorem OnTip.grind {batch : Nat} {readings : List (BitVec 64)} (h : OnTip c candidate)
    (run : grindLoop c.pow batch readings { candidate with stateRoot := root } = .ok header) :
    OnTip c header := by
  obtain ⟨_, _, heq⟩ := grindLoop_spec run
  rw [heq]
  exact ⟨h.prevHash, h.height, h.target⟩

/-- Nothing keeps `add_header` from a header on the tip but the clock, the width of the cumulative
work, and a hash that is taken. -/
structure Timely (blake3 : Bytes → Hash) (c : ChainState) (header : BlockHeader) : Prop where
  clock : ∀ tip, c.blocks.lookup c.tip = some tip →
    tip.header.timestamp.toInt ≤ header.timestamp.toInt
  room : ∀ tip, c.blocks.lookup c.tip = some tip →
    tip.cumulativeWork + Consensus.workForTarget header.target ≤ Consensus.u256Max
  new : c.blocks.lookup (header.id blake3) = none

/-- Cumulative work never exceeds 256 bits. -/
theorem addHeader_room {status : BlockStatus} {c' : ChainState}
    (run : c.addHeader blake3 header = .ok (.ok status, c')) :
    ∀ parent, c.blocks.lookup header.prevHash = some parent →
      parent.cumulativeWork + Consensus.workForTarget header.target ≤ Consensus.u256Max := by
  intro parent hparent
  rw [ChainState.addHeader] at run
  split_ifs at run
  · cases run
  · simp only [hparent] at run
    obtain ⟨check, _, run⟩ := bind_eq_ok.mp run
    cases check with
    | error e => cases run
    | ok u =>
      obtain ⟨work, hwork, _⟩ := bind_eq_ok.mp run
      rw [Consensus.u256] at hwork
      split_ifs at hwork with hle
      exact hle

/-- A ground header on the tip becomes the new tip exactly when it is timely. -/
theorem OnTip.extends_iff (h : OnTip c header) (hpow : c.pow header = true) :
    (∃ c', c.addHeader blake3 header = .ok (.ok .extendedTip, c')) ↔ Timely blake3 c header := by
  obtain ⟨tip, htip, hheight⟩ := h.height
  have hparent : c.blocks.lookup header.prevHash = some tip := h.prevHash ▸ htip
  constructor
  · intro ⟨c', run⟩
    obtain ⟨parent, hadded⟩ := ChainState.added_of_ok run
    cases hparent.symm.trans hadded.known
    refine ⟨fun t ht => ?_, fun t ht => ?_, hadded.new⟩
    · cases htip.symm.trans ht
      exact hadded.follows.timestamp
    · cases htip.symm.trans ht
      exact addHeader_room run tip hparent
  · intro ht
    have hext : Extends c tip header :=
      ⟨hheight, ht.clock tip htip, h.prevHash ▸ h.target, hpow⟩
    obtain ⟨status, c', run⟩ := ChainState.addHeader_of_extends ht.new hparent hext
      (ht.room tip htip) ⟨tip, htip⟩
    obtain ⟨parent, hadded⟩ := ChainState.added_of_ok run
    cases hparent.symm.trans hadded.known
    obtain ⟨t, ht', hmoved⟩ := hadded.tip
    have hold : t = tip := Option.some.inj (ht'.symm.trans (hadded.lookup_of_some htip))
    have hpos := Consensus.workForTarget_pos header.target
    rcases hmoved with ⟨_, _, hstatus⟩ | ⟨hle, _⟩
    · rw [if_pos h.prevHash] at hstatus
      exact ⟨c', hstatus ▸ run⟩
    · rw [hold] at hle
      omega

/-- The header that a node builds on its tip and grinds, with the readings of its clock, extends
the tip exactly when the last reading is not before the tip's timestamp (and the work and the id
have room). -/
theorem candidate_extends_iff {batch : Nat} {readings : List (BitVec 64)}
    (built : c.buildCandidate blake3 miner now transactions = .ok candidate)
    (ground : grindLoop c.pow batch readings { candidate with stateRoot := root } = .ok header) :
    (∃ c', c.addHeader blake3 header = .ok (.ok .extendedTip, c')) ↔ Timely blake3 c header :=
  ((buildCandidate_onTip built).1.grind ground).extends_iff (grindLoop_spec ground).1

section Example

open Consensus.ChainState (easyGenesis easyChild)

/-- The clock reads a time after the tip's. -/
theorem candidate_extends_later : ∃ (c c' : ChainState) (header : BlockHeader),
    c.addHeader Blake3.hash header = .ok (.ok .extendedTip, c') := by
  have hrun : returnsWith (ChainState.new Blake3.hash easyGenesis ⟨10, 16⟩ easyPow) (fun start =>
      returnsWith (start.buildCandidate Blake3.hash 0 1000010 []) fun candidate =>
        returnsWith (grindLoop start.pow 1 [] { candidate with stateRoot := 0 }) fun header =>
          (start.blocks.lookup start.tip).any (fun tip =>
            decide (tip.header.timestamp.toInt ≤ header.timestamp.toInt ∧
              tip.cumulativeWork + Consensus.workForTarget header.target ≤ Consensus.u256Max)) &&
          decide (start.blocks.lookup (header.id Blake3.hash) = none)) = true := by
    decide +kernel
  simp only [returnsWith_iff, Option.any_eq_true, Bool.and_eq_true, decide_eq_true_eq] at hrun
  obtain ⟨start, hstart, candidate, built, header, ground, ⟨tip, htip, hclock, hroom⟩, hnew⟩ := hrun
  have timely : Timely Blake3.hash start header := by
    refine ⟨fun t ht => ?_, fun t ht => ?_, hnew⟩
    · cases htip.symm.trans ht
      exact hclock
    · cases htip.symm.trans ht
      exact hroom
  obtain ⟨c', run⟩ := (candidate_extends_iff built ground).mpr timely
  exact ⟨start, c', header, run⟩

/-- The clock is behind the tip: the ground header is refused. -/
theorem candidate_refused : ∃ (c c' : ChainState) (candidate header : BlockHeader),
    Run Blake3.hash easyGenesis ⟨10, 16⟩ easyPow [] [easyGenesis] c ∧
      c.buildCandidate Blake3.hash 0 5 [] = .ok candidate ∧
      grindLoop c.pow 1 [] { candidate with stateRoot := 0 } = .ok header ∧
      c.addHeader Blake3.hash header = .ok (.error .badTimestamp, c') := by
  have hrun : returnsWith (ChainState.new Blake3.hash easyGenesis ⟨10, 16⟩ easyPow) (fun start =>
      returnsWith (start.buildCandidate Blake3.hash 0 5 []) fun candidate =>
        returnsWith (grindLoop start.pow 1 [] { candidate with stateRoot := 0 }) fun header =>
          returnsWith (start.addHeader Blake3.hash header) fun r =>
            decide (r.1 = .error .badTimestamp)) = true := by
    decide +kernel
  simp only [returnsWith_iff, decide_eq_true_eq] at hrun
  obtain ⟨start, hstart, candidate, built, header, ground, ⟨_, c'⟩, run, rfl⟩ := hrun
  exact ⟨start, c', candidate, header, .new hstart, built, ground, run⟩

end Example

end TaoDag.Node
